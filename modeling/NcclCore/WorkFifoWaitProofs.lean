import NcclCore.WorkFifoProofs

/-! When a wait for room in the work FIFO can end. A callback is recorded only when
a group is finished, and only if more than an eighth of the ring was filled since the
last one. So a group waits forever exactly if its plans, and what earlier groups left
unrecorded, do not fit into the ring together. -/
namespace NcclCore.WorkFifoProofs
open List
variable {consumed recorded : Nat}
variable {system : WorkSystem}

/-! ### Running the queued callbacks -/

variable {comm : WorkFifo}

theorem runCallback_cons (queued : comm.eventCallbackQueue = callback :: rest) : comm.runCallback = { comm with
      eventCallbackQueue := rest
      workFifoConsumed := callback.workFifoConsumed.getD comm.workFifoConsumed } := by
  simp [WorkFifo.runCallback, queued]

section
variable (pending : Pending launched consumed comm.eventCallbackQueue recorded)
  (consumedAt : comm.workFifoConsumed = BitVec.ofNat 32 (position launched consumed))
include pending consumedAt

theorem Pending.next :
    ∃ consumed', consumed ≤ consumed' ∧ Pending launched consumed' comm.runCallback.eventCallbackQueue recorded ∧
      comm.runCallback.workFifoConsumed = BitVec.ofNat 32 (position launched consumed') := by
  cases queued : comm.eventCallbackQueue with
  | nil =>
    have idle : comm.runCallback = comm := by
      simp [WorkFifo.runCallback, queued]
    rw [idle]
    exact ⟨consumed, le_rfl, pending, consumedAt⟩
  | cons callback rest =>
    rw [queued, Pending] at pending
    rw [runCallback_cons queued]
    cases value : callback.workFifoConsumed with
    | none =>
      rw [value] at pending
      exact ⟨consumed, le_rfl, pending, consumedAt⟩
    | some =>
      rw [value] at pending
      exact ⟨callback.event, pending.2.1, pending.2.2, pending.1⟩

/-- Callbacks only consume further, and never beyond the recorded position. -/
theorem Pending.run (n : Nat) :
    ∃ consumed', consumed ≤ consumed' ∧ consumed' ≤ recorded ∧
      (WorkFifo.runCallback^[n] comm).workFifoConsumed = BitVec.ofNat 32 (position launched consumed') := by
  induction n generalizing comm consumed with
  | zero => exact ⟨consumed, le_rfl, pending.le, consumedAt⟩
  | succ n ih =>
    obtain ⟨next, further, pending, consumedAt⟩ := pending.next consumedAt
    obtain ⟨consumed', later, bound, result⟩ := ih pending consumedAt
    exact ⟨consumed', further.trans later, bound, result⟩

end

/-- Either all is consumed that was recorded, or some queued callback does this. -/
theorem Pending.last (queued : comm.eventCallbackQueue = queue) (pending : Pending launched consumed queue recorded) :
    consumed = recorded ∨ ∃ n callback, queue[n]? = some callback ∧ callback.workFifoConsumed.isSome ∧
      (WorkFifo.runCallback^[n + 1] comm).workFifoConsumed = BitVec.ofNat 32 (position launched recorded) := by
  induction queue generalizing comm consumed with
  | nil => exact .inl pending
  | cons callback rest ih =>
    have queued' : comm.runCallback.eventCallbackQueue = rest := by
      rw [runCallback_cons queued]
    rw [Pending] at pending
    cases value : callback.workFifoConsumed with
    | none =>
      rw [value] at pending
      rcases ih queued' pending with same | ⟨n, other, found, kernelFinish, result⟩
      · exact .inl same
      · exact .inr ⟨n + 1, other, found, kernelFinish, result⟩
    | some =>
      rw [value] at pending
      obtain ⟨rfl, -, pending⟩ := pending
      rcases ih queued' pending with rfl | ⟨n, other, found, kernelFinish, result⟩
      · refine .inr ⟨0, callback, rfl, by rw [value]; rfl, ?_⟩
        change comm.runCallback.workFifoConsumed = _
        rw [runCallback_cons queued, value]
        rfl
      · exact .inr ⟨n + 1, other, found, kernelFinish, result⟩

/-! ### Waiting with enough room recorded -/

/-- A wait can end exactly if there is room once all that is recorded is consumed. -/
theorem Tracks.canRelease (small : k ≤ 30) (tracks : Tracks k system consumed recorded) {plan : UploadPlan}
    (waits : hasRoom (2 ^ k) system.comm.workFifoConsumed
      (system.comm.workFifoProduced + BitVec.ofNat 32 plan.workBytes) = false) :
    system.comm.CanRelease (2 ^ k) (system.comm.workFifoProduced + BitVec.ofNat 32 plan.workBytes) ↔
      total system.launched - position system.launched recorded + plan.workBytes ≤ 2 ^ k := by
  have ring : 2 ^ k ≤ 2 ^ 30 := Nat.pow_le_pow_right (by decide) small
  have budget : plan.workBytes ≤ 2 ^ 30 := plan.budget
  have room := tracks.room
  have order := tracks.order
  constructor
  · rintro ⟨n, -, -, -, released⟩
    obtain ⟨consumed', further, bound, result⟩ := tracks.pending.run tracks.consumedAt (n + 1)
    have low : position system.launched consumed ≤ position system.launched consumed' := position_mono further
    have high : position system.launched consumed' ≤ position system.launched recorded := position_mono bound
    rw [result, tracks.produced, ← BitVec.ofNat_add, hasRoom_iff small (by omega) (by omega)] at released
    omega
  · intro fits
    rcases tracks.pending.last rfl with rfl | ⟨n, callback, found, kernelFinish, result⟩
    · rw [← Bool.not_eq_true, tracks.room_iff small] at waits
      omega
    · refine ⟨n, callback, found, kernelFinish, ?_⟩
      rw [result, tracks.produced, ← BitVec.ofNat_add, hasRoom_iff small (by omega) (by omega)]
      omega

/-! ### What is produced and not recorded -/

def unrecorded (system : WorkSystem) (recorded : Nat) : Nat :=
  total system.launched - position system.launched recorded

theorem Tracks.unrecorded_append (tracks : Tracks k system consumed recorded) (comm : WorkFifo) (kernel : Launched) :
    unrecorded ⟨comm, system.launched ++ [kernel]⟩ recorded = unrecorded system recorded + fifoBytes kernel := by
  have order := tracks.order
  rw [unrecorded, unrecorded, total_append, position_append tracks.bound]
  omega

theorem unrecorded_finish (system : WorkSystem) (n recorded : Nat) :
    unrecorded (system.finish n) recorded = unrecorded system recorded := by
  rw [unrecorded, unrecorded, finish_total, finish_position]

/-- Unrecorded bytes after `ncclLaunchFinish`. -/
def carry (workFifoBytes carried : Nat) : Nat := if workFifoBytes / 8 < carried then 0 else carried

/-- Every plan still to be launched fits into the ring behind what is not recorded
by then. -/
def Fits (workFifoBytes : Nat) : Nat → List LaunchOp → Prop
  | _, [] => True
  | carried, .launch plan :: rest =>
    carried + plan.workBytes ≤ workFifoBytes ∧ Fits workFifoBytes (carried + plan.workBytes) rest
  | carried, .finish planQueueEmpty :: rest =>
    Fits workFifoBytes (if planQueueEmpty then carried else carry workFifoBytes carried) rest

/-- Every group fits into the ring together with what earlier groups left
unrecorded. -/
def GroupsFit (workFifoBytes : Nat) : Nat → List (List UploadPlan) → Prop
  | _, [] => True
  | carried, plans :: groups =>
    carried + (plans.map UploadPlan.workBytes).sum ≤ workFifoBytes ∧
      GroupsFit workFifoBytes (carry workFifoBytes (carried + (plans.map UploadPlan.workBytes).sum)) groups

theorem fits_append (workFifoBytes : Nat) (plans : List UploadPlan) (rest : List LaunchOp)
    (bound : carried ≤ workFifoBytes) : Fits workFifoBytes carried (plans.map .launch ++ rest) ↔
      carried + (plans.map UploadPlan.workBytes).sum ≤ workFifoBytes ∧
        Fits workFifoBytes (carried + (plans.map UploadPlan.workBytes).sum) rest := by
  induction plans generalizing carried with
  | nil => simp [bound]
  | cons plan plans ih =>
    rw [map_cons, cons_append, Fits, map_cons, sum_cons, ← add_assoc]
    constructor
    · rintro ⟨one, others⟩
      exact (ih one).mp others
    · rintro ⟨all, others⟩
      have one : carried + plan.workBytes ≤ workFifoBytes := by omega
      exact ⟨one, (ih one).mpr ⟨all, others⟩⟩

theorem fits_doLaunches (workFifoBytes : Nat) (groups : List (List UploadPlan)) (low : carried ≤ workFifoBytes / 8) :
    Fits workFifoBytes carried (doLaunches groups) ↔ GroupsFit workFifoBytes carried groups := by
  induction groups generalizing carried with
  | nil => exact Iff.rfl
  | cons plans groups ih =>
    have carry_low : ∀ carried, carry workFifoBytes carried ≤ workFifoBytes / 8 := fun carried => by
      unfold carry
      split <;> omega
    have cut : doLaunches (plans :: groups) = plans.map .launch ++ .finish plans.isEmpty :: doLaunches groups := by
      simp [doLaunches]
    rw [cut, fits_append _ _ _ (by omega), GroupsFit, Fits]
    cases plans with
    | nil =>
      have same : carry workFifoBytes carried = carried := if_neg (by omega)
      simp [same, ih low]
    | cons => simp [ih (carry_low _)]

theorem unrecorded_launchFinish (system : WorkSystem) (recorded : Nat) (planQueueEmpty : Bool) (comm : WorkFifo) :
    unrecorded ⟨comm, system.launched⟩
      (if planQueueEmpty then recorded
        else if 2 ^ k / 8 < unrecorded system recorded then system.launched.length else recorded) =
      if planQueueEmpty then unrecorded system recorded else carry (2 ^ k) (unrecorded system recorded) := by
  unfold carry
  cases planQueueEmpty with
  | true => rfl
  | false =>
    simp only [Bool.false_eq_true, if_false]
    split
    · exact Nat.sub_self _
    · rfl

/-! ### Reaching a wait -/

section
variable (tracks : Tracks k system consumed recorded) (rest : List LaunchOp)
include tracks rest

/-- When all kernels have finished, every queued callback can run. -/
theorem Tracks.drain (finished : ∀ kernel ∈ system.launched, kernel.finished = true) :
    ∃ comm, Relation.ReflTransGen (LaunchState.Step (2 ^ k)) ⟨system, rest⟩ ⟨⟨comm, system.launched⟩, rest⟩ ∧
      Tracks k ⟨comm, system.launched⟩ recorded recorded := by
  obtain ⟨comm, launched⟩ := system
  generalize queued : comm.eventCallbackQueue = queue
  induction queue generalizing comm consumed with
  | nil =>
    have pending := tracks.pending
    rw [queued] at pending
    obtain rfl : consumed = recorded := pending
    exact ⟨comm, .refl, tracks⟩
  | cons callback callbacks ih =>
    have reached : WorkSystem.Reached ⟨comm, launched⟩ callback.event :=
      fun kernel member => finished kernel (mem_of_mem_take member)
    obtain ⟨consumed', tracks⟩ := tracks.callback queued reached
    obtain ⟨comm', steps, tracks⟩ := ih comm.runCallback tracks finished (by rw [runCallback_cons queued])
    exact ⟨comm', .head (.callback queued reached) steps, tracks⟩

/-- The launched kernels finish one after the other. -/
theorem Tracks.finishAll (n : Nat) :
    ∃ system', Relation.ReflTransGen (LaunchState.Step (2 ^ k)) ⟨system, rest⟩ ⟨system', rest⟩ ∧
      Tracks k system' consumed recorded ∧ unrecorded system' recorded = unrecorded system recorded ∧
      system'.launched.length = system.launched.length ∧ system'.Reached n := by
  induction n with
  | zero => exact ⟨system, .refl, tracks, rfl, rfl, fun kernel member => by simp at member⟩
  | succ n ih =>
    obtain ⟨system', steps, tracks, same, length, reached⟩ := ih
    refine ⟨system'.finish n, steps.tail (.kernel n), tracks.finish n, ?_, ?_, ?_⟩
    · rw [unrecorded_finish, same]
    · simp [WorkSystem.finish, length]
    · intro kernel member
      obtain ⟨i, bound, found⟩ := mem_take_iff_getElem.mp member
      have here := List.getElem?_eq_some_iff.mpr ⟨_, found⟩
      rw [finish_getElem?, Option.map_eq_some_iff] at here
      obtain ⟨kernel', old, rfl⟩ := here
      split
      · rfl
      · apply reached
        obtain ⟨inside, old⟩ := List.getElem?_eq_some_iff.mp old
        exact mem_take_iff_getElem.mpr ⟨i, by omega, old⟩

/-- All that is recorded can be consumed before the next plan is uploaded. -/
theorem Tracks.settle :
    ∃ system', Relation.ReflTransGen (LaunchState.Step (2 ^ k)) ⟨system, rest⟩ ⟨system', rest⟩ ∧
      Tracks k system' recorded recorded ∧ unrecorded system' recorded = unrecorded system recorded := by
  obtain ⟨middle, finishing, tracks, same, length, reached⟩ := tracks.finishAll rest system.launched.length
  have finished : ∀ kernel ∈ middle.launched, kernel.finished = true := by
    rw [← length, WorkSystem.Reached, take_length] at reached
    exact reached
  obtain ⟨comm, running, tracks⟩ := tracks.drain rest finished
  exact ⟨_, finishing.trans running, tracks, same⟩

end

variable {remaining rest : List LaunchOp} {plan : UploadPlan}

def AllFifo (remaining : List LaunchOp) : Prop :=
  ∀ plan, LaunchOp.launch plan ∈ remaining → plan.workStorageType = .fifo

theorem AllFifo.tail (allFifo : AllFifo (op :: remaining)) : AllFifo remaining :=
  fun plan member => allFifo plan (mem_cons_of_mem op member)

/-- Launching a plan, with the unrecorded bytes this leaves. -/
theorem Tracks.launch (small : k ≤ 30) (tracks : Tracks k system consumed recorded)
    (isFifo : plan.workStorageType = .fifo)
    (uploaded : uploadWork (2 ^ k) system.comm system.launched.length plan = some (comm, work)) :
    let next : WorkSystem := ⟨comm, system.launched ++ [⟨plan, work, system.comm.workFifoProduced, false⟩]⟩
    Tracks k next consumed recorded ∧ unrecorded next recorded = unrecorded system recorded + plan.workBytes := by
  refine ⟨tracks.upload small uploaded, ?_⟩
  rw [tracks.unrecorded_append, fifoBytes, if_pos isFifo]

/-- What remains fits, in every state of a run whose groups fit. -/
theorem fits_of_reachable (small : k ≤ 30) {state : LaunchState} (allFifo : AllFifo (doLaunches groups))
    (fits : Fits (2 ^ k) 0 (doLaunches groups)) (reachable : state.Reachable (2 ^ k) groups) :
    ∃ consumed recorded, Tracks k state.system consumed recorded ∧ AllFifo state.remaining ∧
      Fits (2 ^ k) (unrecorded state.system recorded) state.remaining := by
  induction reachable with
  | refl => exact ⟨0, 0, tracks_initial k, allFifo, fits⟩
  | tail _ step ih =>
    obtain ⟨consumed, recorded, tracks, allFifo, fits⟩ := ih
    cases step with
    | launch uploaded =>
      obtain ⟨tracks, next⟩ := tracks.launch small (allFifo _ mem_cons_self) uploaded
      exact ⟨consumed, recorded, tracks, allFifo.tail, by rw [next]; exact fits.2⟩
    | finish planQueueEmpty =>
      refine ⟨consumed, _, tracks.launchFinish small planQueueEmpty, allFifo.tail, ?_⟩
      exact unrecorded_launchFinish _ recorded planQueueEmpty _ ▸ fits
    | kernel n =>
      refine ⟨consumed, recorded, tracks.finish n, allFifo, ?_⟩
      rw [unrecorded_finish]
      exact fits
    | callback queued reached =>
      obtain ⟨consumed', tracks⟩ := tracks.callback queued reached
      exact ⟨consumed', recorded, tracks, allFifo, fits⟩

/-- A run whose plans do not all fit can be taken to a wait that nothing ends. -/
theorem exists_stuck_wait (small : k ≤ 30) (tracks : Tracks k system consumed recorded) (allFifo : AllFifo remaining)
    (tooMuch : ¬ Fits (2 ^ k) (unrecorded system recorded) remaining) :
    ∃ state plan, Relation.ReflTransGen (LaunchState.Step (2 ^ k)) ⟨system, remaining⟩ state ∧
      state.Waits (2 ^ k) plan ∧ ¬ state.system.comm.CanRelease (2 ^ k)
        (state.system.comm.workFifoProduced + BitVec.ofNat 32 plan.workBytes) := by
  induction remaining generalizing system consumed recorded with
  | nil => exact absurd trivial tooMuch
  | cons op rest ih =>
    cases op with
    | launch plan =>
      obtain ⟨system', steps, tracks, same⟩ := tracks.settle (.launch plan :: rest)
      have order := tracks.order
      have test : hasRoom (2 ^ k) system'.comm.workFifoConsumed
          (system'.comm.workFifoProduced + BitVec.ofNat 32 plan.workBytes) = true ↔
          unrecorded system' recorded + plan.workBytes ≤ 2 ^ k := by
        rw [tracks.room_iff small, unrecorded]
        omega
      cases available : hasRoom (2 ^ k) system'.comm.workFifoConsumed
          (system'.comm.workFifoProduced + BitVec.ofNat 32 plan.workBytes) with
      | false =>
        refine ⟨⟨system', .launch plan :: rest⟩, plan, steps, ⟨rfl, available⟩, ?_⟩
        rw [tracks.canRelease small available, ← unrecorded, ← test, available]
        exact Bool.false_ne_true
      | true =>
        obtain ⟨comm, work, uploaded⟩ := exists_uploadWork (2 ^ k) system'.comm system'.launched.length
          (allFifo plan mem_cons_self) available
        obtain ⟨tracks, next⟩ := tracks.launch small (allFifo plan mem_cons_self) uploaded
        have rest_tooMuch : ¬ Fits (2 ^ k) (unrecorded system recorded + plan.workBytes) rest :=
          fun fits => tooMuch ⟨by rw [← same]; exact test.mp available, fits⟩
        rw [← same, ← next] at rest_tooMuch
        obtain ⟨state, waiting, more, waits⟩ := ih tracks allFifo.tail rest_tooMuch
        exact ⟨state, waiting, (steps.tail (.launch uploaded)).trans more, waits⟩
    | finish planQueueEmpty =>
      rw [Fits, ← unrecorded_launchFinish system recorded planQueueEmpty
        (ncclLaunchFinish (2 ^ k) system.comm planQueueEmpty system.launched.length)] at tooMuch
      obtain ⟨state, waiting, more, waits⟩ := ih (tracks.launchFinish small planQueueEmpty) allFifo.tail tooMuch
      exact ⟨state, waiting, .head (.finish planQueueEmpty) more, waits⟩

/-- Every wait for room can be ended by a queued callback exactly if each group fits
into the ring together with what earlier groups left unrecorded. -/
theorem wait_released_iff (small : k ≤ 30) (groups : List (List UploadPlan))
    (isFifo : ∀ plans ∈ groups, ∀ plan ∈ plans, plan.workStorageType = .fifo) :
    (∀ (state : LaunchState) (plan : UploadPlan), state.Reachable (2 ^ k) groups → state.Waits (2 ^ k) plan →
      state.system.comm.CanRelease (2 ^ k) (state.system.comm.workFifoProduced + BitVec.ofNat 32 plan.workBytes)) ↔
    GroupsFit (2 ^ k) 0 groups := by
  have allFifo : AllFifo (doLaunches groups) := by
    intro plan member
    simp only [doLaunches, mem_flatMap, mem_append, mem_map, mem_singleton, reduceCtorEq,
      or_false, LaunchOp.launch.injEq, exists_eq_right] at member
    obtain ⟨plans, inGroups, inPlans⟩ := member
    exact isFifo plans inGroups plan inPlans
  rw [← fits_doLaunches _ _ (Nat.zero_le _)]
  constructor
  · intro released
    by_contra tooMuch
    obtain ⟨state, plan, reachable, waits, stuck⟩ := exists_stuck_wait small (tracks_initial k) allFifo tooMuch
    exact stuck (released state plan reachable waits)
  · intro fits state plan reachable waits
    obtain ⟨consumed, recorded, tracks, -, fits⟩ := fits_of_reachable small allFifo fits reachable
    obtain ⟨system, remaining⟩ := state
    obtain ⟨head, full⟩ := waits
    cases remaining with
    | nil => cases head
    | cons op rest =>
      obtain rfl : op = .launch plan := Option.some.inj head
      exact (tracks.canRelease small full).mpr fits.1

/-- A group that fits, and a second one behind the bytes the first left unrecorded. -/
theorem wait_released_small_groups : ∃ plan : UploadPlan, plan.works = [48, 48] ∧
    ∀ (state : LaunchState) (next : UploadPlan), state.Reachable (2 ^ 10) [[plan], [plan, plan]] →
      state.Waits (2 ^ 10) next → state.system.comm.CanRelease (2 ^ 10)
        (state.system.comm.workFifoProduced + BitVec.ofNat 32 next.workBytes) := by
  let plan : UploadPlan := ⟨.fifo, [48, 48], [], by decide, by decide⟩
  refine ⟨plan, rfl, (wait_released_iff (by decide) [[plan], [plan, plan]] ?_).mpr ⟨by decide, by decide, trivial⟩⟩
  intro plans inGroups other inPlans
  have same : other = plan := by
    simp only [mem_cons, not_mem_nil, or_false] at inGroups
    rcases inGroups with rfl | rfl <;> simpa using inPlans
  rw [same]

/-- Three plans of at most half the ring in one group: no callback is queued when the third
one waits. -/
theorem three_half_plans_stuck : ∃ (plan : UploadPlan) (state : LaunchState),
    plan.workStorageType = .fifo ∧ plan.works = [48] ∧ plan.workBytes ≤ 2 ^ 7 / 2 ∧
      state.Reachable (2 ^ 7) [[plan, plan, plan]] ∧
      state.Waits (2 ^ 7) plan ∧ state.system.comm.eventCallbackQueue = [] ∧ ¬ state.system.comm.CanRelease (2 ^ 7)
        (state.system.comm.workFifoProduced + BitVec.ofNat 32 plan.workBytes) := by
  let plan : UploadPlan := ⟨.fifo, [48], [], by decide, by decide⟩
  have isFifo : plan.workStorageType = .fifo := rfl
  obtain ⟨comm₁, work₁, first⟩ := exists_uploadWork (2 ^ 7) WorkSystem.initial.comm 0 isFifo (by decide)
  obtain ⟨-, after₁, -⟩ := uploadWork_fifo isFifo first
  obtain ⟨comm₂, work₂, second⟩ := exists_uploadWork (2 ^ 7) comm₁ 1 isFifo (by rw [after₁]; decide)
  obtain ⟨-, after₂, -⟩ := uploadWork_fifo isFifo second
  have empty : comm₂.eventCallbackQueue = [] := by
    rw [after₂, after₁]
    rfl
  have step₁ : LaunchState.Step (2 ^ 7) ⟨.initial, doLaunches [[plan, plan, plan]]⟩ _ := .launch first
  refine ⟨plan, _, isFifo, rfl, by decide, .tail (.single step₁) (.launch second), ⟨rfl, ?_⟩, empty, ?_⟩
  · change hasRoom (2 ^ 7) comm₂.workFifoConsumed (comm₂.workFifoProduced + BitVec.ofNat 32 plan.workBytes) = false
    rw [after₂, after₁]
    decide
  · rintro ⟨n, callback, found, -⟩
    rw [empty] at found
    cases found

end NcclCore.WorkFifoProofs
