import Mathlib.Algebra.BigOperators.Ring.List
import Mathlib.Data.Nat.ModEq
import NcclCore.WorkFifo

/-! The work FIFO keeps the works of every kernel that has not finished. The wrapped
positions stand for unbounded ones, and those for numbers of kernels: everything
before the consumed one has finished, and the rest fits into the ring. -/
namespace NcclCore.WorkFifoProofs
open List Function
variable {k : Nat}

/-! ### Wrapped positions -/

theorem fifoMask_toNat (small : k ≤ 30) : (fifoMask (2 ^ k)).toNat = 2 ^ k - 1 := by
  have bound : 2 ^ k < 2 ^ 32 := Nat.pow_lt_pow_right Nat.one_lt_two (by omega)
  have positive := Nat.two_pow_pos k
  have value : (BitVec.ofNat 32 (2 ^ k)).toNat = 2 ^ k := by
    rw [BitVec.toNat_ofNat, Nat.mod_eq_of_lt bound]
  have one : (1 : BitVec 32).toNat = 1 := rfl
  rw [fifoMask, BitVec.toNat_sub_of_le (by rwa [BitVec.le_def, value]), value, one]

/-- The slot a position is written to: `fifoCursor & fifoMask`. -/
theorem masked_eq_mod (small : k ≤ 30) (position : Nat) :
    (BitVec.ofNat 32 position &&& fifoMask (2 ^ k)).toNat = position % 2 ^ k := by
  rw [BitVec.toNat_and, fifoMask_toNat small, Nat.and_two_pow_sub_one_eq_mod, BitVec.toNat_ofNat,
    Nat.mod_mod_of_dvd _ (Nat.pow_dvd_pow 2 (by omega))]

theorem ofNat_sub_toNat (order : low ≤ high) (near : high - low < 2 ^ 32) :
    (BitVec.ofNat 32 high - BitVec.ofNat 32 low).toNat = high - low := by
  have shift : BitVec.ofNat 32 high = BitVec.ofNat 32 (high - low) + BitVec.ofNat 32 low := by
    rw [← BitVec.ofNat_add, Nat.sub_add_cancel order]
  rw [shift, BitVec.add_sub_cancel, BitVec.toNat_ofNat, Nat.mod_eq_of_lt near]

theorem hasRoom_iff (small : k ≤ 30) (order : low ≤ high) (near : high - low < 2 ^ 32) :
    hasRoom (2 ^ k) (BitVec.ofNat 32 low) (BitVec.ofNat 32 high) = true ↔ high ≤ low + 2 ^ k := by
  have bound : 2 ^ k < 2 ^ 32 := Nat.pow_lt_pow_right Nat.one_lt_two (by omega)
  rw [hasRoom, decide_eq_true_iff, BitVec.le_def, ofNat_sub_toNat order near, BitVec.toNat_ofNat, Nat.mod_eq_of_lt bound]
  omega

/-- Positions less than a ring apart have different slots. -/
theorem mod_ne_of_window {ring x y : Nat} (less : x < y) (near : y < x + ring) : x % ring ≠ y % ring := by
  intro same
  have divides := (Nat.modEq_iff_dvd' less.le).mp same
  exact absurd (Nat.le_of_dvd (by omega) divides) (by omega)

/-! ### Copying -/

theorem copyWorks_eq (mask : BitVec 32) (number : Nat) (works : List Nat) (aligned : ∀ size ∈ works, 16 ∣ size)
    (state : UploadState) : state.copyWorks mask number works =
      (UploadState.copy · mask number)^[works.sum / 16] state := by
  induction works generalizing state with
  | nil => rfl
  | cons size rest ih =>
    have divides := aligned size mem_cons_self
    have split : (size :: rest).sum / 16 = rest.sum / 16 + size / 16 := by
      rw [sum_cons]
      omega
    have rest := ih (fun size member => aligned size (mem_cons_of_mem _ member)) (state.copyWork mask number size)
    rw [split, iterate_add_apply]
    exact rest

theorem copies_cursor (mask : BitVec 32) (number n : Nat) (state : UploadState) :
    ((UploadState.copy · mask number)^[n] state).fifoCursor =
        state.fifoCursor + BitVec.ofNat 32 (16 * n) ∧
      ((UploadState.copy · mask number)^[n] state).src = state.src + 16 * n := by
  induction n with
  | zero => simp
  | succ n ih =>
    obtain ⟨cursor, src⟩ := ih
    rw [iterate_succ_apply']
    constructor
    · rw [UploadState.copy, cursor, Nat.mul_succ, BitVec.ofNat_add, ← BitVec.add_assoc]
      rfl
    · change ((UploadState.copy · mask number)^[n] state).src + 16 = _
      rw [src, Nat.mul_succ, add_assoc]

/-- The copies of one plan from a position on, within one ring. -/
theorem copies_buf (small : k ≤ 30) (number n start : Nat) (buf : Nat → Option (Nat × Nat)) (fits : 16 * n ≤ 2 ^ k) :
    let copied := (UploadState.copy · (fifoMask (2 ^ k)) number)^[n] ⟨BitVec.ofNat 32 start, 0, buf⟩
    (∀ j < n, copied.buf ((start + 16 * j) % 2 ^ k) = some (number, 16 * j)) ∧
      ∀ address, (∀ j < n, address ≠ (start + 16 * j) % 2 ^ k) → copied.buf address = buf address := by
  intro copied
  induction n with
  | zero => exact ⟨fun j less => absurd less (Nat.not_lt_zero j), fun address _ => rfl⟩
  | succ n ih =>
    obtain ⟨written, kept⟩ := ih (by omega)
    obtain ⟨cursor, src⟩ := copies_cursor (fifoMask (2 ^ k)) number n ⟨BitVec.ofNat 32 start, 0, buf⟩
    have step : copied.buf = update
        ((UploadState.copy · (fifoMask (2 ^ k)) number)^[n] ⟨BitVec.ofNat 32 start, 0, buf⟩).buf
        ((start + 16 * n) % 2 ^ k) (some (number, 16 * n)) := by
      simp only [copied]
      rw [iterate_succ_apply', UploadState.copy, cursor, src, ← BitVec.ofNat_add, masked_eq_mod small, Nat.zero_add]
    rw [step]
    constructor
    · intro j less
      rcases Nat.lt_or_eq_of_le (Nat.lt_succ_iff.mp less) with earlier | rfl
      · rw [update_of_ne (mod_ne_of_window (by omega) (by omega))]
        exact written j earlier
      · exact update_self ..
    · intro address other
      rw [update_of_ne (other n (Nat.lt_succ_self n))]
      exact kept address fun j less => other j (Nat.lt_succ_of_lt less)

/-! ### Positions of kernels -/

def fifoBytes (kernel : Launched) : Nat :=
  if kernel.plan.workStorageType = .fifo then kernel.plan.workBytes else 0

/-- The unbounded position at which the works of a kernel begin. -/
def position (launched : List Launched) (n : Nat) : Nat := ((launched.take n).map fifoBytes).sum

/-- The position behind all of them. -/
def total (launched : List Launched) : Nat := position launched launched.length

variable {launched : List Launched} {kernel : Launched}

theorem position_succ (found : launched[i]? = some kernel) :
    position launched (i + 1) = position launched i + fifoBytes kernel := by
  simp [position, take_add_one, found]

theorem position_mono (order : i ≤ j) : position launched i ≤ position launched j := by
  obtain ⟨d, rfl⟩ := Nat.exists_eq_add_of_le order
  simp [position, take_add]

theorem position_append (bound : i ≤ launched.length) (kernel : Launched) :
    position (launched ++ [kernel]) i = position launched i := by
  simp [position, take_append_of_le_length bound]

theorem total_append (launched : List Launched) (kernel : Launched) :
    total (launched ++ [kernel]) = total launched + fifoBytes kernel := by
  simp [total, position]

theorem finish_getElem? (system : WorkSystem) (n i : Nat) : (system.finish n).launched[i]? =
    (system.launched[i]?).map fun kernel => if n = i then { kernel with finished := true } else kernel := by
  simp only [WorkSystem.finish, getElem?_modify]
  cases system.launched[i]? with
  | none | some => split <;> rfl

theorem finish_position (system : WorkSystem) (n i : Nat) :
    position (system.finish n).launched i = position system.launched i := by
  have same : (system.finish n).launched.map fifoBytes = system.launched.map fifoBytes := by
    apply ext_getElem?
    intro j
    rw [getElem?_map, getElem?_map, finish_getElem?, Option.map_map]
    congr 1
    funext kernel
    split <;> rfl
  rw [position, position, map_take, same, map_take]

theorem finish_total (system : WorkSystem) (n : Nat) : total (system.finish n).launched = total system.launched := by
  rw [total, total, finish_position]
  simp [WorkSystem.finish]

/-- The callbacks in the queue take the consumed kernel to the recorded one. -/
def Pending (launched : List Launched) : Nat → List EventCallback → Nat → Prop
  | consumed, [], recorded => consumed = recorded
  | consumed, callback :: rest, recorded =>
    match callback.workFifoConsumed with
    | none => Pending launched consumed rest recorded
    | some value => value = BitVec.ofNat 32 (position launched callback.event) ∧ consumed ≤ callback.event ∧
      Pending launched callback.event rest recorded

variable {consumed recorded : Nat}

section
variable (pending : Pending launched consumed queue recorded)
include pending

theorem Pending.le : consumed ≤ recorded := by
  induction queue generalizing consumed with
  | nil => exact pending.le
  | cons callback rest ih =>
    rw [Pending] at pending
    split at pending
    · exact ih pending
    · exact pending.2.1.trans (ih pending.2.2)

theorem Pending.congr (same : ∀ i ≤ recorded, position launched' i = position launched i) :
    Pending launched' consumed queue recorded := by
  induction queue generalizing consumed with
  | nil => exact pending
  | cons callback rest ih =>
    rw [Pending] at pending ⊢
    split at pending
    · exact ih pending
    · obtain ⟨value, order, pending⟩ := pending
      exact ⟨by rw [value, same _ pending.le], order, ih pending⟩

theorem Pending.concat (last : Pending launched recorded [callback] recorded') :
    Pending launched consumed (queue ++ [callback]) recorded' := by
  induction queue generalizing consumed with
  | nil =>
    rw [show consumed = recorded from pending]
    exact last
  | cons first rest ih =>
    rw [Pending] at pending
    rw [cons_append, Pending]
    split at pending
    · exact ih pending
    · exact ⟨pending.1, pending.2.1, ih pending.2.2⟩

end

/-! ### The invariant -/

/-- The kernels before the consumed one have finished; up to the recorded one the
callbacks wait to be run. The works since the consumed one fit into the ring, and
those of kernels that have not finished are in it. -/
structure Tracks (k : Nat) (system : WorkSystem) (consumed recorded : Nat) : Prop where
  bound : recorded ≤ system.launched.length
  produced : system.comm.workFifoProduced = BitVec.ofNat 32 (total system.launched)
  lastRecorded : system.comm.workFifoProducedLastRecorded = BitVec.ofNat 32 (position system.launched recorded)
  consumedAt : system.comm.workFifoConsumed = BitVec.ofNat 32 (position system.launched consumed)
  pending : Pending system.launched consumed system.comm.eventCallbackQueue recorded
  room : total system.launched ≤ position system.launched consumed + 2 ^ k
  done : system.Reached consumed
  uploaded : ∀ i kernel, system.launched[i]? = some kernel → kernel.plan.workStorageType = .fifo →
    kernel.start = BitVec.ofNat 32 (position system.launched i) ∧
      kernel.work = ⟨kernel.plan.batches.map fun batch => batch.translate kernel.start, fifoMask (2 ^ k)⟩
  intact : ∀ i kernel, system.launched[i]? = some kernel → kernel.plan.workStorageType = .fifo →
    kernel.finished = false → ∀ j, 16 * j < kernel.plan.workBytes →
      system.comm.workFifoBuf ((position system.launched i + 16 * j) % 2 ^ k) = some (i, 16 * j)

variable {system : WorkSystem}

theorem Tracks.order (tracks : Tracks k system consumed recorded) :
    position system.launched consumed ≤ position system.launched recorded ∧
      position system.launched recorded ≤ total system.launched :=
  ⟨position_mono tracks.pending.le, position_mono tracks.bound⟩

/-- There is room for a plan if it fits behind the others. -/
theorem Tracks.room_iff (tracks : Tracks k system consumed recorded) (small : k ≤ 30) (plan : UploadPlan) :
    hasRoom (2 ^ k) system.comm.workFifoConsumed (system.comm.workFifoProduced + BitVec.ofNat 32 plan.workBytes) = true ↔
      total system.launched + plan.workBytes ≤ position system.launched consumed + 2 ^ k := by
  have order := tracks.order
  have ring : 2 ^ k ≤ 2 ^ 30 := Nat.pow_le_pow_right (by decide) small
  have used := tracks.room
  have budget : plan.workBytes ≤ 2 ^ 30 := plan.budget
  rw [tracks.produced, tracks.consumedAt, ← BitVec.ofNat_add, hasRoom_iff small (by omega) (by omega)]

theorem tracks_initial (k : Nat) : Tracks k .initial 0 0 := by
  refine ⟨Nat.le_refl 0, rfl, rfl, rfl, rfl, Nat.zero_le _, ?_, ?_, ?_⟩
  · intro kernel member
    cases member
  · intro i kernel found
    cases found
  · intro i kernel found
    cases found

/-- A kernel that has not finished lies between the consumed position and the
produced one. -/
theorem Tracks.window (tracks : Tracks k system consumed recorded) (found : system.launched[i]? = some kernel)
    (isFifo : kernel.plan.workStorageType = .fifo) (running : kernel.finished = false) :
    position system.launched consumed ≤ position system.launched i ∧
      position system.launched i + kernel.plan.workBytes ≤ total system.launched := by
  have inside := (List.getElem?_eq_some_iff.mp found).1
  constructor
  · apply position_mono
    by_contra early
    have member : kernel ∈ system.launched.take consumed := by
      rw [List.mem_take_iff_getElem]
      refine ⟨i, by omega, ?_⟩
      exact (List.getElem?_eq_some_iff.mp found).2
    rw [tracks.done kernel member] at running
    cases running
  · have next := position_succ found
    have last : position system.launched (i + 1) ≤ total system.launched := position_mono inside
    rw [fifoBytes, if_pos isFifo] at next
    omega

theorem concat_cases (found : (launched ++ [kernel])[i]? = some other) :
    launched[i]? = some other ∨ (i = launched.length ∧ other = kernel) := by
  rcases lt_trichotomy i launched.length with before | rfl | after
  · rw [getElem?_append_left before] at found
    exact .inl found
  · simp only [getElem?_concat_length, Option.some.injEq] at found
    exact .inr ⟨rfl, found.symm⟩
  · rw [getElem?_eq_none (by simp; omega)] at found
    cases found

theorem workBytes_dvd (plan : UploadPlan) : 16 ∣ plan.workBytes := dvd_sum plan.aligned

/-- What `uploadWork` does for a plan in the FIFO. -/
theorem uploadWork_fifo {comm comm' : WorkFifo} (isFifo : plan.workStorageType = .fifo)
    (uploaded : uploadWork workFifoBytes comm number plan = some (comm', work)) :
    hasRoom workFifoBytes comm.workFifoConsumed (comm.workFifoProduced + BitVec.ofNat 32 plan.workBytes) = true ∧
      comm' = { comm with
        workFifoProduced := comm.workFifoProduced + BitVec.ofNat 32 plan.workBytes
        workFifoBuf := ((UploadState.copy · (fifoMask workFifoBytes) number)^[plan.workBytes / 16]
          ⟨comm.workFifoProduced, 0, comm.workFifoBuf⟩).buf } ∧
      work = ⟨plan.batches.map fun batch => batch.translate comm.workFifoProduced, fifoMask workFifoBytes⟩ := by
  have whole : 16 * (plan.works.sum / 16) = plan.works.sum := Nat.mul_div_cancel' (workBytes_dvd plan)
  simp only [uploadWork, isFifo] at uploaded
  split at uploaded
  next room =>
    obtain ⟨rfl, rfl⟩ := Prod.mk.inj (Option.some.inj uploaded)
    refine ⟨room, ?_, rfl⟩
    rw [copyWorks_eq _ _ _ plan.aligned, (copies_cursor _ _ _ _).1, whole]
    rfl
  · cases uploaded

theorem exists_uploadWork (workFifoBytes : Nat) (comm : WorkFifo) (number : Nat)
    (isFifo : plan.workStorageType = .fifo) (room : hasRoom workFifoBytes comm.workFifoConsumed
      (comm.workFifoProduced + BitVec.ofNat 32 plan.workBytes) = true) :
    ∃ comm' work, uploadWork workFifoBytes comm number plan = some (comm', work) := by
  simp only [uploadWork, isFifo, room, if_true]
  exact ⟨_, _, rfl⟩

section
variable (tracks : Tracks k system consumed recorded)
include tracks

/-- One more kernel, whose works are written behind the others. -/
theorem Tracks.append (kernel : Launched) (comm : WorkFifo) (produced : comm.workFifoProduced =
      BitVec.ofNat 32 (total system.launched + fifoBytes kernel))
    (lastRecorded : comm.workFifoProducedLastRecorded = system.comm.workFifoProducedLastRecorded)
    (consumedAt : comm.workFifoConsumed = system.comm.workFifoConsumed)
    (pending : Pending system.launched consumed comm.eventCallbackQueue recorded)
    (room : total system.launched + fifoBytes kernel ≤
      position system.launched consumed + 2 ^ k) (uploaded : kernel.plan.workStorageType = .fifo →
      kernel.start = BitVec.ofNat 32 (total system.launched) ∧
        kernel.work = ⟨kernel.plan.batches.map fun batch => batch.translate kernel.start, fifoMask (2 ^ k)⟩)
    (written : kernel.plan.workStorageType = .fifo → ∀ j, 16 * j < kernel.plan.workBytes →
      comm.workFifoBuf ((total system.launched + 16 * j) % 2 ^ k) =
        some (system.launched.length, 16 * j))
    (kept : ∀ x, position system.launched consumed ≤ x → x < total system.launched →
      comm.workFifoBuf (x % 2 ^ k) = system.comm.workFifoBuf (x % 2 ^ k)) :
    Tracks k ⟨comm, system.launched ++ [kernel]⟩ consumed recorded := by
  have order := pending.le
  have bound := tracks.bound
  have same : ∀ i ≤ system.launched.length, position (system.launched ++ [kernel]) i = position system.launched i :=
    fun i early => position_append early kernel
  constructor
  · simp only [length_append]
    omega
  · rw [total_append]
    exact produced
  · rw [same recorded bound, lastRecorded]
    exact tracks.lastRecorded
  · rw [same consumed (by omega), consumedAt]
    exact tracks.consumedAt
  · exact pending.congr fun i early => same i (by omega)
  · rw [total_append, same consumed (by omega)]
    exact room
  · intro other member
    rw [take_append_of_le_length (by omega)] at member
    exact tracks.done other member
  · intro i other found isFifo
    rcases concat_cases found with old | ⟨rfl, rfl⟩
    · rw [same i (le_of_lt (List.getElem?_eq_some_iff.mp old).1)]
      exact tracks.uploaded i other old isFifo
    · rw [same _ le_rfl]
      exact uploaded isFifo
  · intro i other found isFifo running j inside
    rcases concat_cases found with old | ⟨rfl, rfl⟩
    · obtain ⟨after, before⟩ := tracks.window old isFifo running
      rw [same i (le_of_lt (List.getElem?_eq_some_iff.mp old).1), kept _ (by omega) (by omega)]
      exact tracks.intact i other old isFifo running j inside
    · rw [same _ le_rfl]
      exact written isFifo j inside

/-- A kernel without works in the FIFO. -/
theorem Tracks.append_other (kernel : Launched) (other : kernel.plan.workStorageType ≠ .fifo)
    (pending : Pending system.launched consumed queue recorded) :
    Tracks k ⟨{ system.comm with eventCallbackQueue := queue }, system.launched ++ [kernel]⟩ consumed recorded := by
  have empty : fifoBytes kernel = 0 := if_neg other
  refine tracks.append _ _ ?_ rfl rfl pending ?_ (absurd · other) (absurd · other) fun _ _ _ => rfl
  · rw [empty]
    exact tracks.produced
  · rw [empty]
    exact tracks.room

theorem Tracks.upload (small : k ≤ 30) {comm : WorkFifo}
    (uploaded : uploadWork (2 ^ k) system.comm system.launched.length plan = some (comm, work)) :
    Tracks k ⟨comm, system.launched ++ [⟨plan, work, system.comm.workFifoProduced, false⟩]⟩ consumed recorded := by
  cases storage : plan.workStorageType with
  | args | persistent =>
    simp only [uploadWork, storage, Option.some.injEq, Prod.mk.injEq] at uploaded
    obtain ⟨rfl, -⟩ := uploaded
    refine tracks.append_other _ (by simp [storage]) ?_
    first
      | exact tracks.pending
      | exact tracks.pending.concat rfl
  | fifo =>
    obtain ⟨room, rfl, rfl⟩ := uploadWork_fifo storage uploaded
    have order := tracks.order
    rw [tracks.room_iff small] at room
    have bytes : fifoBytes ⟨plan, ⟨plan.batches.map fun batch => batch.translate system.comm.workFifoProduced,
        fifoMask (2 ^ k)⟩, system.comm.workFifoProduced, false⟩ = plan.workBytes := if_pos storage
    obtain ⟨written, kept⟩ := copies_buf small system.launched.length (plan.workBytes / 16)
      (total system.launched) system.comm.workFifoBuf (by omega)
    rw [← tracks.produced] at written kept
    refine tracks.append _ _ ?_ rfl rfl tracks.pending ?_ ?_ ?_ ?_
    · rw [bytes, BitVec.ofNat_add, ← tracks.produced]
    · rw [bytes]
      exact room
    · intro _
      exact ⟨tracks.produced, rfl⟩
    · intro _ j inside
      have copied : j < plan.workBytes / 16 := by
        have whole := workBytes_dvd plan
        have : 16 * j < plan.workBytes := inside
        omega
      exact written j copied
    · intro x after before
      refine kept _ fun j copied => ?_
      exact mod_ne_of_window (by omega) (by omega)

theorem Tracks.launchFinish (small : k ≤ 30) (planQueueEmpty : Bool) :
    Tracks k { system with
      comm := ncclLaunchFinish (2 ^ k) system.comm planQueueEmpty system.launched.length } consumed
      (if planQueueEmpty then recorded
        else if 2 ^ k / 8 < total system.launched - position system.launched recorded
          then system.launched.length else recorded) := by
  have bound : 2 ^ k ≤ 2 ^ 30 := Nat.pow_le_pow_right (by decide) small
  obtain ⟨later, order⟩ := tracks.order
  have room := tracks.room
  have test : BitVec.ofNat 32 (2 ^ k / 8) < system.comm.workFifoProduced - system.comm.workFifoProducedLastRecorded ↔
      2 ^ k / 8 < total system.launched - position system.launched recorded := by
    rw [BitVec.lt_def, tracks.produced, tracks.lastRecorded, ofNat_sub_toNat order (by omega), BitVec.toNat_ofNat,
      Nat.mod_eq_of_lt (by omega)]
  unfold ncclLaunchFinish
  simp only [test]
  cases planQueueEmpty with
  | true => exact tracks
  | false =>
    simp only [Bool.false_eq_true, if_false]
    split
    · have last : Pending system.launched recorded [⟨system.launched.length, some system.comm.workFifoProduced⟩]
          system.launched.length := ⟨tracks.produced, tracks.bound, rfl⟩
      exact
      { tracks with
        bound := le_rfl
        lastRecorded := tracks.produced
        pending := tracks.pending.concat last }
    · exact tracks

theorem Tracks.finish (n : Nat) :
    Tracks k (system.finish n) consumed recorded := by
  have before : ∀ {i : Nat} {kernel : Launched}, (system.finish n).launched[i]? = some kernel →
      ∃ kernel', system.launched[i]? = some kernel' ∧ kernel.plan = kernel'.plan ∧ kernel.work = kernel'.work ∧
        kernel.start = kernel'.start ∧ (kernel'.finished = true → kernel.finished = true) := by
    intro i kernel found
    rw [finish_getElem?, Option.map_eq_some_iff] at found
    obtain ⟨kernel', found, rfl⟩ := found
    refine ⟨kernel', found, ?_⟩
    split <;> simp
  constructor
  · simpa [WorkSystem.finish] using tracks.bound
  · rw [finish_total]
    exact tracks.produced
  · rw [finish_position]
    exact tracks.lastRecorded
  · rw [finish_position]
    exact tracks.consumedAt
  · exact tracks.pending.congr fun i _ => finish_position system n i
  · rw [finish_total, finish_position]
    exact tracks.room
  · intro kernel member
    obtain ⟨i, bound, found⟩ := mem_take_iff_getElem.mp member
    obtain ⟨kernel', old, -, -, -, finished⟩ := before (List.getElem?_eq_some_iff.mpr ⟨_, found⟩)
    apply finished
    apply tracks.done
    rw [mem_take_iff_getElem]
    obtain ⟨inside, same⟩ := List.getElem?_eq_some_iff.mp old
    exact ⟨i, by omega, same⟩
  · intro i kernel found isFifo
    obtain ⟨kernel', old, plan, work, start, -⟩ := before found
    rw [plan] at isFifo ⊢
    rw [finish_position, work, start]
    exact tracks.uploaded i kernel' old isFifo
  · intro i kernel found isFifo running j inside
    obtain ⟨kernel', old, plan, -, -, finished⟩ := before found
    rw [plan] at isFifo inside
    rw [finish_position]
    refine tracks.intact i kernel' old isFifo ?_ j inside
    cases state : kernel'.finished with
    | false => rfl
    | true =>
      rw [finished state] at running
      cases running

theorem Tracks.callback {callback : EventCallback}
    {rest : List EventCallback} (queued : system.comm.eventCallbackQueue = callback :: rest)
    (reached : system.Reached callback.event) :
    ∃ consumed', Tracks k { system with comm := system.comm.runCallback } consumed' recorded := by
  have pending := tracks.pending
  rw [queued, Pending] at pending
  unfold WorkFifo.runCallback
  simp only [queued]
  cases value : callback.workFifoConsumed with
  | none =>
    rw [value] at pending
    exact ⟨consumed, { tracks with pending }⟩
  | some =>
    rw [value] at pending
    obtain ⟨rfl, order, pending⟩ := pending
    have later : position system.launched consumed ≤ position system.launched callback.event := position_mono order
    exact ⟨callback.event,
      { tracks with
        consumedAt := rfl
        pending
        room := tracks.room.trans (Nat.add_le_add_right later _)
        done := reached }⟩

theorem Tracks.step (small : k ≤ 30) {next : WorkSystem}
    (step : WorkSystem.Step (2 ^ k) system next) : ∃ consumed' recorded', Tracks k next consumed' recorded' := by
  cases step with
  | upload uploaded => exact ⟨consumed, recorded, tracks.upload small uploaded⟩
  | launchFinish planQueueEmpty => exact ⟨consumed, _, tracks.launchFinish small planQueueEmpty⟩
  | kernel n => exact ⟨consumed, recorded, tracks.finish n⟩
  | callback queued reached =>
    obtain ⟨consumed', tracks⟩ := tracks.callback queued reached
    exact ⟨consumed', recorded, tracks⟩

end

theorem exists_tracks (small : k ≤ 30) (reachable : WorkSystem.Reachable (2 ^ k) system) :
    ∃ consumed recorded, Tracks k system consumed recorded := by
  induction reachable with
  | refl => exact ⟨0, 0, tracks_initial k⟩
  | tail _ step ih =>
    obtain ⟨consumed, recorded, tracks⟩ := ih
    exact tracks.step small step

/-! ### Work in use is not overwritten -/

/-- The slot of the works of a plan that are written from `start` on. -/
def slot (workFifoBytes : Nat) (start : BitVec 32) (offset : Nat) : Nat :=
  (start + BitVec.ofNat 32 offset &&& fifoMask workFifoBytes).toNat

/-- The device adds an offset to the translated base and masks the sum. -/
theorem address_translate (batches : List DevWorkBatch) (batch : DevWorkBatch) (start : BitVec 32)
    (workFifoBytes srcWork packInWork : Nat) :
    UploadedWork.address ⟨batches, fifoMask workFifoBytes⟩ (batch.translate start) srcWork packInWork =
      slot workFifoBytes start (batch.offsetBase + srcWork * batch.workType.size + packInWork * 16) := by
  have wrapped : BitVec.ofNat 32 ((batch.offsetBase + start.toNat) % 2 ^ 32 + srcWork * batch.workType.size +
      packInWork * 16) =
      start + BitVec.ofNat 32 (batch.offsetBase + srcWork * batch.workType.size + packInWork * 16) := by
    apply BitVec.eq_of_toNat_eq
    rw [BitVec.toNat_add, BitVec.toNat_ofNat, BitVec.toNat_ofNat]
    omega
  exact congrArg (fun sum => (sum &&& fifoMask workFifoBytes).toNat) wrapped

/-- In every run, the produced position is at most a ring ahead of the consumed
one; an upload writes every slot once, and none of a kernel that has not finished;
and such a kernel finds its works at the addresses its batches designate. -/
theorem work_fifo_safe (small : k ≤ 30) (reachable : WorkSystem.Reachable (2 ^ k) system) :
    (system.comm.workFifoProduced - system.comm.workFifoConsumed).toNat ≤ 2 ^ k ∧
    (∀ plan comm work, plan.workStorageType = .fifo →
      uploadWork (2 ^ k) system.comm system.launched.length plan = some (comm, work) →
      ∀ j, 16 * j < plan.workBytes →
        (∀ j' < j, slot (2 ^ k) system.comm.workFifoProduced (16 * j') ≠
          slot (2 ^ k) system.comm.workFifoProduced (16 * j)) ∧
        ∀ kernel ∈ system.launched, kernel.plan.workStorageType = .fifo → kernel.finished = false →
          ∀ j', 16 * j' < kernel.plan.workBytes →
            slot (2 ^ k) kernel.start (16 * j') ≠ slot (2 ^ k) system.comm.workFifoProduced (16 * j)) ∧
    (∀ i kernel, system.launched[i]? = some kernel → kernel.plan.workStorageType = .fifo →
      kernel.work.batches = kernel.plan.batches.map (fun batch => batch.translate kernel.start) ∧
      (∀ (batch : DevWorkBatch) (srcWork packInWork : Nat),
        kernel.work.address (batch.translate kernel.start) srcWork packInWork =
          slot (2 ^ k) kernel.start (batch.offsetBase + srcWork * batch.workType.size + packInWork * 16)) ∧
      (kernel.finished = false → ∀ j, 16 * j < kernel.plan.workBytes →
        system.comm.workFifoBuf (slot (2 ^ k) kernel.start (16 * j)) = some (i, 16 * j))) := by
  obtain ⟨consumed, recorded, tracks⟩ := exists_tracks small reachable
  have order := tracks.order
  have ring : 2 ^ k ≤ 2 ^ 30 := Nat.pow_le_pow_right (by decide) small
  have used := tracks.room
  have slots : ∀ p offset, slot (2 ^ k) (BitVec.ofNat 32 p) offset = (p + offset) % 2 ^ k := fun p offset => by
    rw [slot, ← BitVec.ofNat_add, masked_eq_mod small]
  refine ⟨?_, ?_, ?_⟩
  · rw [tracks.produced, tracks.consumedAt, ofNat_sub_toNat (by omega) (by omega)]
    omega
  · intro plan comm work isFifo uploaded j inside
    obtain ⟨room, -, -⟩ := uploadWork_fifo isFifo uploaded
    rw [tracks.room_iff small] at room
    rw [tracks.produced, slots]
    constructor
    · intro j' earlier
      rw [slots]
      exact mod_ne_of_window (by omega) (by omega)
    · intro kernel member isFifo' running j' inside'
      obtain ⟨i, found⟩ := mem_iff_getElem?.mp member
      obtain ⟨after, before⟩ := tracks.window found isFifo' running
      rw [(tracks.uploaded i kernel found isFifo').1, slots]
      exact mod_ne_of_window (by omega) (by omega)
  · intro i kernel found isFifo
    obtain ⟨start, work⟩ := tracks.uploaded i kernel found isFifo
    refine ⟨by rw [work], fun batch srcWork packInWork => ?_, fun running j inside => ?_⟩
    · rw [work, address_translate]
    · rw [start, slots]
      exact tracks.intact i kernel found isFifo running j inside

/-- The works of a second plan, uploaded behind the callback of the first one, go around
the end of the ring. -/
theorem work_fifo_safe_wrapped : ∃ system kernel, WorkSystem.Reachable (2 ^ 7) system ∧
    system.launched[1]? = some kernel ∧ kernel.finished = false ∧
      kernel.work.batches = [⟨0, false, .coll, 0, 0, 96, 1⟩] ∧ system.comm.workFifoBuf 16 = some (1, 48) := by
  let plan : UploadPlan := ⟨.fifo, [96], [⟨0, false, .coll, 0, 0, 0, 1⟩], by decide, by decide⟩
  have isFifo : plan.workStorageType = .fifo := rfl
  obtain ⟨comm, work, first⟩ := exists_uploadWork (2 ^ 7) WorkSystem.initial.comm 0 isFifo (by decide)
  obtain ⟨-, rfl, -⟩ := uploadWork_fifo isFifo first
  obtain ⟨buf, uploaded⟩ : ∃ buf, WorkSystem.Reachable (2 ^ 7) ⟨⟨96, 0, 0, [], buf⟩, [⟨plan, work, 0, false⟩]⟩ :=
    ⟨_, .single (.upload first)⟩
  have recorded := uploaded.tail (.launchFinish false)
  have callback : ncclLaunchFinish (2 ^ 7) ⟨96, 0, 0, [], buf⟩ false 1 = ⟨96, 96, 0, [⟨1, some 96⟩], buf⟩ := by
    simp [ncclLaunchFinish]
  simp only [length_singleton, callback] at recorded
  have consumed := (recorded.tail (.kernel 0)).tail (.callback rfl fun kernel member => by rw [mem_singleton.mp member])
  obtain ⟨comm, work', second⟩ := exists_uploadWork (2 ^ 7) ⟨96, 96, 96, [], buf⟩ 1 isFifo
    (show hasRoom (2 ^ 7) 96 (96 + 96) = true by decide)
  have wrapped := consumed.tail (.upload second)
  obtain ⟨batches, -, intact⟩ := (work_fifo_safe (by decide) wrapped).2.2 1 _ rfl isFifo
  refine ⟨_, _, wrapped, rfl, rfl, batches, ?_⟩
  rw [show 16 = slot (2 ^ 7) 96 48 by decide]
  exact intact rfl 3 (show 48 < 96 by decide)

end NcclCore.WorkFifoProofs
