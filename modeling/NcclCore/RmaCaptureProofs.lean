import NcclCore.Rma
import NcclCore.Lib.Handshake

/-! A captured program of one-sided operations on the copy engine does not get
stuck exactly when its puts and waits can be ordered with every slot holding at
most one signal. A put waits for the acknowledgement of the signal before, so a
program that runs to completion outside of a graph may block in one. -/
namespace NcclCore
open Lib Lib.Handshake List

/-- The rank whose stream puts to or takes from a slot. -/
def RmaSlot.owner (slot : RmaSlot n) : Side → Fin n
  | .put => slot.src
  | .take => slot.dst

/-- The puts and takes of a launch: one put for a task with a signal, and one take for
each signal that an entry waits for. -/
def launchEvents (self : Fin n) : RmaLaunch n → List (Event (RmaSlot n))
  | .put tasks => tasks.flatMap fun task =>
    if task.signalMode then [⟨.put, ⟨task.ctx, task.signalIdx, self, task.peer⟩⟩] else []
  | .wait task => task.entries.flatMap fun entry =>
    replicate entry.nsignals ⟨.take, ⟨task.ctx, entry.signalIdx, entry.peer, self⟩⟩

theorem launchEvents_owned (member : event ∈ launchEvents self launch) : event.slot.owner event.side = self := by
  cases launch with
  | put =>
    obtain ⟨task, -, is⟩ := mem_flatMap.mp member
    split at is
    · rw [mem_singleton.mp is]
      rfl
    · cases is
  | wait =>
    obtain ⟨entry, -, is⟩ := mem_flatMap.mp member
    rw [eq_of_mem_replicate is]
    rfl

section
variable (programs : Fin n → List (RmaLaunch n))

/-- The puts and takes of all ranks. -/
def rmaNet : Net (Fin n) (RmaSlot n) where
  owner side slot := slot.owner side
  program rank := (programs rank).flatMap (launchEvents rank)
  owned rank event member := by
    obtain ⟨launch, -, is⟩ := mem_flatMap.mp member
    exact launchEvents_owned is

/-- Some rank is unfinished, and every unfinished stream is blocked in a wait. -/
def RmaGraphStuck (state : RmaGraphState n) : Prop :=
  (∃ rank, (state rank).pc < (rmaGraphStream rank (programs rank)).length) ∧
    ∀ rank, (state rank).pc < (rmaGraphStream rank (programs rank)).length → rmaGraphStep programs state rank = none

def RmaCeStuck (state : RmaCeState n) : Prop :=
  (∃ rank, (state rank).pc < (rmaCeStream rank (programs rank)).length) ∧
    ∀ rank, (state rank).pc < (rmaCeStream rank (programs rank)).length → rmaCeStep programs state rank = none

/-- Outside of a graph the programs always run to completion. -/
def EagerCompletes : Prop :=
  ∀ ranks state, rmaCeRun programs ranks = some state → ¬ RmaCeStuck programs state

/-- In a graph no run gets stuck. -/
def CapturedCompletes : Prop :=
  ∀ ranks state, rmaGraphRun programs ranks = some state → ¬ RmaGraphStuck programs state

/-- The puts and takes of the programs can be ordered: along every program, the
`i`-th take from a slot behind the `i`-th put, and the next put behind that take. -/
def Orderable : Prop := ∃ time, (rmaNet programs).Ordered time

end

namespace RmaCaptureProofs
variable {n : Nat}

/-- The flag that a side of a slot waits for. -/
def flag (state : RmaGraphState n) (side : Side) (slot : RmaSlot n) : UInt64 :=
  match side with
  | .put => (state slot.src).graphAckDev slot.ctx (ncclRmaSignalSlot n slot.signalIdx slot.dst)
  | .take => (state slot.dst).graphSignalsDev slot.ctx (ncclRmaSignalSlot n slot.signalIdx slot.src)

def setFlag (state : RmaGraphState n) (side : Side) (slot : RmaSlot n) (value : UInt64) : RmaGraphState n :=
  match side with
  | .put => state.setAck slot.src slot.ctx (ncclRmaSignalSlot n slot.signalIdx slot.dst) value
  | .take => state.setSignal slot.dst slot.ctx (ncclRmaSignalSlot n slot.signalIdx slot.src) value

/-- The operations of a put or take: wait, reset, and set the other flag. -/
def waitOp : Event (RmaSlot n) → RmaGraphOp n
  | ⟨.put, slot⟩ => .waitAck slot.ctx (ncclRmaSignalSlot n slot.signalIdx slot.dst)
  | ⟨.take, slot⟩ => .waitSignal slot.ctx (ncclRmaSignalSlot n slot.signalIdx slot.src)

def resetOp : Event (RmaSlot n) → RmaGraphOp n
  | ⟨.put, slot⟩ => .resetAck slot.ctx (ncclRmaSignalSlot n slot.signalIdx slot.dst)
  | ⟨.take, slot⟩ => .resetSignal slot.ctx (ncclRmaSignalSlot n slot.signalIdx slot.src)

def writeOp : Event (RmaSlot n) → RmaGraphOp n
  | ⟨.put, slot⟩ => .writeSignal slot.ctx slot.dst (ncclRmaSignalSlot n slot.signalIdx slot.src)
  | ⟨.take, slot⟩ => .writeAck slot.ctx slot.src (ncclRmaSignalSlot n slot.signalIdx slot.dst)

def eventOps (event : Event (RmaSlot n)) : List (RmaGraphOp n) := [waitOp event, resetOp event, writeOp event]

theorem stream_eq (rank : Fin n) (launches : List (RmaLaunch n)) :
    rmaGraphStream rank launches = (launches.flatMap (launchEvents rank)).flatMap eventOps := by
  rw [flatMap_assoc]
  refine flatMap_congr fun launch _ => ?_
  cases launch with
  | put =>
    simp only [rmaGraphLaunch, ncclRmaCePutLaunchPersist, launchEvents, flatMap_assoc]
    refine flatMap_congr fun task _ => ?_
    cases task.signalMode <;> simp [eventOps, waitOp, resetOp, writeOp]
  | wait =>
    simp only [rmaGraphLaunch, ncclRmaCeWaitLaunchPersist, launchEvents, flatMap_assoc]
    refine flatMap_congr fun entry _ => ?_
    have repeated : ∀ event : Event (RmaSlot n),
        replicate entry.nsignals event = (range entry.nsignals).map fun _ => event := by simp
    rw [repeated, flatMap_map]
    rfl

theorem cell_of_stream {events : List (Event (RmaSlot n))} (k : Nat) (j : Fin 3) :
    (events.flatMap eventOps)[3 * k + j]? = events[k]?.bind fun event => (eventOps event)[j.val]? := by
  induction events generalizing k with
  | nil => rfl
  | cons event rest ih =>
    rw [flatMap_cons]
    cases k with
    | zero =>
      rw [getElem?_append_left (by simp [eventOps]), mul_zero, zero_add]
      rfl
    | succ k =>
      rw [getElem?_append_right (by simp [eventOps]; omega)]
      simpa [eventOps, show 3 * (k + 1) + j.val - 3 = 3 * k + j by omega] using ih k

theorem length_stream (events : List (Event (RmaSlot n))) : (events.flatMap eventOps).length = 3 * events.length := by
  induction events with
  | nil => rfl
  | cons event rest ih => simp [eventOps]; omega

/-! ### Flags -/

section
variable (state : RmaGraphState n)
include state

theorem flag_setFlag (side side' : Side) (slot slot' : RmaSlot n) (value : UInt64) :
    flag (setFlag state side slot value) side' slot' =
      if side' = side ∧ slot' = slot then value else flag state side' slot' := by
  cases side <;> cases side' <;>
    simp [flag, setFlag, RmaGraphState.setAck, RmaGraphState.setSignal, Function.update_apply, RmaSlot.ext_iff]
  · by_cases same : slot'.src = slot.src
    · simp [same, RmaWords.set_apply, signalSlot_eq_iff]
    · simp [same]
  · split <;> simp [*]
  · split <;> simp [*]
  · by_cases same : slot'.dst = slot.dst
    · simp [same, RmaWords.set_apply, signalSlot_eq_iff]
    · simp [same]

section
variable (event : Event (RmaSlot n))

theorem exec_wait :
    state.exec (event.slot.owner event.side) (waitOp event) =
      if cuWaitValueGeq (flag state event.side event.slot) 1 then some state else none := by
  obtain ⟨side, slot⟩ := event
  cases side <;> rfl

theorem exec_reset :
    state.exec (event.slot.owner event.side) (resetOp event) = some (setFlag state event.side event.slot 0) := by
  obtain ⟨side, slot⟩ := event
  cases side <;> rfl

theorem exec_write :
    state.exec (event.slot.owner event.side) (writeOp event) = some (setFlag state event.side.other event.slot 1) := by
  obtain ⟨side, slot⟩ := event
  cases side <;> rfl

end

theorem setFlag_pc (side : Side) (slot : RmaSlot n) (value : UInt64) (rank : Fin n) :
    (setFlag state side slot value rank).pc = (state rank).pc := by
  cases side <;> simp only [setFlag, RmaGraphState.setAck, RmaGraphState.setSignal, Function.update_apply] <;>
    split <;> simp [*]

/-- The stream of a rank is one operation further. -/
def advance (state : RmaGraphState n) (rank : Fin n) : RmaGraphState n :=
  Function.update state rank { state rank with pc := (state rank).pc + 1 }

theorem advance_pc (rank other : Fin n) :
    (advance state rank other).pc = (state other).pc + if other = rank then 1 else 0 := by
  by_cases same : other = rank
  · subst same
    simp [advance]
  · simp [advance, same]

theorem flag_advance (rank : Fin n) (side : Side) (slot : RmaSlot n) :
    flag (advance state rank) side slot = flag state side slot := by
  have same : ∀ other, (advance state rank other).graphAckDev = (state other).graphAckDev ∧
      (advance state rank other).graphSignalsDev = (state other).graphSignalsDev := by
    intro other
    by_cases same : other = rank
    · subst same
      simp [advance]
    · simp [advance, same]
  cases side <;> simp [flag, same]

end

/-! ### The streams as parties of a handshake -/

def phaseIndex : Phase → Fin 3
  | .waiting => 0
  | .claimed => 1
  | .cleared => 2

/-- The state of the streams is that of the handshake. -/
structure Sim (state : RmaGraphState n) (abs : State (Fin n) (RmaSlot n)) : Prop where
  pc : ∀ rank, (state rank).pc = 3 * abs.done rank + phaseIndex (abs.phase rank)
  flags : ∀ side slot, flag state side slot = if abs.ready side slot then 1 else 0

variable {state next : RmaGraphState n} {abs abs' : State (Fin n) (RmaSlot n)}

theorem Sim.goOn (sim : Sim state abs) (pcs : ∀ other, (next other).pc = (state other).pc)
    (flags : ∀ side slot, flag next side slot = if abs'.ready side slot then 1 else 0)
    (moved : 3 * abs'.done rank + phaseIndex (abs'.phase rank) = 3 * abs.done rank + phaseIndex (abs.phase rank) + 1)
    (others : ∀ other, other ≠ rank → abs'.done other = abs.done other ∧ abs'.phase other = abs.phase other) :
    Sim (advance next rank) abs' := by
  refine ⟨fun other => ?_, fun side slot => by rw [flag_advance, flags]⟩
  rw [advance_pc, pcs, sim.pc]
  by_cases same : other = rank
  · subst same
    rw [if_pos rfl, moved]
  · rw [if_neg same, (others other same).1, (others other same).2, add_zero]

theorem flags_setReady (flags : ∀ side slot, flag state side slot = if abs.ready side slot then 1 else 0)
    (side : Side) (slot : RmaSlot n) (value : Bool) (side' : Side) (slot' : RmaSlot n) :
    flag (setFlag state side slot (if value then 1 else 0)) side' slot' =
      if (abs.setReady side slot value).ready side' slot' then 1 else 0 := by
  rw [flag_setFlag, State.setReady_ready]
  by_cases here : side' = side ∧ slot' = slot
  · rw [if_pos here, if_pos here]
  · rw [if_neg here, if_neg here, flags]

/-- A stream goes on exactly when its party does. -/
theorem Sim.step (sim : Sim state abs) (rank : Fin n) :
    Option.Rel Sim (rmaGraphStep programs state rank) ((rmaNet programs).step abs rank) := by
  rw [rmaGraphStep, stream_eq, sim.pc, cell_of_stream, Net.step,
    show ((programs rank).flatMap (launchEvents rank))[abs.done rank]? = (rmaNet programs).current abs rank from rfl]
  cases here : (rmaNet programs).current abs rank with
  | none => exact .none
  | some event =>
    have owns : event.slot.owner event.side = rank := Net.current_owner here
    simp only [Option.bind_some, Option.bind_eq_bind]
    cases phase : abs.phase rank with
    | waiting =>
      have ran : state.exec rank (waitOp event) = _ := owns ▸ exec_wait state event
      change Option.Rel Sim ((state.exec rank (waitOp event)).bind fun next => some (advance next rank)) _
      rw [ran, sim.flags]
      cases abs.ready event.side event.slot with
      | false => exact .none
      | true =>
        refine .some (sim.goOn (fun _ => rfl) sim.flags ?_ fun other differs => ?_)
        · simp [State.enter, phase, phaseIndex]
        · simp [State.enter, differs]
    | claimed =>
      have ran : state.exec rank (resetOp event) = _ := owns ▸ exec_reset state event
      change Option.Rel Sim ((state.exec rank (resetOp event)).bind fun next => some (advance next rank)) _
      rw [ran]
      refine .some (sim.goOn (setFlag_pc _ _ _ _) (flags_setReady sim.flags event.side event.slot false) ?_
        fun other differs => ?_)
      · simp [State.enter, State.setReady, phase, phaseIndex]
      · simp [State.enter, State.setReady, differs]
    | cleared =>
      have ran : state.exec rank (writeOp event) = _ := owns ▸ exec_write state event
      change Option.Rel Sim ((state.exec rank (writeOp event)).bind fun next => some (advance next rank)) _
      rw [ran]
      refine .some (sim.goOn (setFlag_pc _ _ _ _) (flags_setReady sim.flags event.side.other event.slot true) ?_
        fun other differs => ?_)
      · simp [State.finish, State.setReady, phase, phaseIndex]
        omega
      · simp [State.finish, State.setReady, differs]

theorem sim_run (programs : Fin n → List (RmaLaunch n)) (ranks : List (Fin n)) :
    Option.Rel Sim (rmaGraphRun programs ranks)
      (ranks.foldlM (fun abs rank => (rmaNet programs).step abs rank) .initial) :=
  foldlM_rel (fun sim rank => sim.step rank) ⟨fun _ => rfl, fun side _ => by cases side <;> rfl⟩ ranks

theorem reachable_of_run (run : rmaGraphRun programs ranks = some state) :
    ∃ abs, (rmaNet programs).Reachable abs ∧ Sim state abs := by
  have rel := sim_run programs ranks
  rw [run] at rel
  generalize reached : ranks.foldlM (fun abs rank => (rmaNet programs).step abs rank) .initial = final at rel
  cases rel with
  | some sim => exact ⟨_, foldlM_eq_some_iff.mp ⟨ranks, reached⟩, sim⟩

theorem run_of_reachable (reached : (rmaNet programs).Reachable abs) :
    ∃ ranks state, rmaGraphRun programs ranks = some state ∧ Sim state abs := by
  obtain ⟨ranks, run⟩ := foldlM_eq_some_iff.mpr reached
  have rel := sim_run programs ranks
  rw [run] at rel
  generalize executed : rmaGraphRun programs ranks = final at rel
  cases rel with
  | some sim => exact ⟨ranks, _, executed, sim⟩

theorem Sim.unfinished_iff (sim : Sim state abs) (rank : Fin n) :
    (state rank).pc < (rmaGraphStream rank (programs rank)).length ↔ (rmaNet programs).Unfinished abs rank := by
  rw [stream_eq, length_stream, sim.pc]
  change _ ↔ abs.done rank < ((programs rank).flatMap (launchEvents rank)).length
  omega

theorem Sim.step_none_iff (sim : Sim state abs) (rank : Fin n) :
    rmaGraphStep programs state rank = none ↔ (rmaNet programs).step abs rank = none := by
  have rel : Option.Rel Sim (rmaGraphStep programs state rank) ((rmaNet programs).step abs rank) := sim.step rank
  generalize rmaGraphStep programs state rank = next, (rmaNet programs).step abs rank = next' at rel ⊢
  cases rel with
  | none => exact iff_of_true rfl rfl
  | some => simp

theorem Sim.stuck_iff (sim : Sim state abs) : RmaGraphStuck programs state ↔ (rmaNet programs).Stuck abs := by
  simp only [RmaGraphStuck, Net.Stuck, sim.unfinished_iff, sim.step_none_iff]
  refine and_congr_right fun _ => ⟨fun blocked rank => ?_, fun blocked rank _ => blocked rank⟩
  by_cases unfinished : (rmaNet programs).Unfinished abs rank
  · exact blocked rank unfinished
  · have finished : (rmaNet programs).current abs rank = none := getElem?_eq_none (not_lt.mp unfinished)
    rw [Net.step, finished]
    rfl

/-- In a graph the programs never get stuck exactly when their puts and takes can be
ordered with every signal acknowledged before the next. -/
theorem captured_completes_iff (programs : Fin n → List (RmaLaunch n)) :
    CapturedCompletes programs ↔ Orderable programs := by
  rw [Orderable, ← Net.not_stuck_iff]
  constructor
  · intro completes abs reached stuck
    obtain ⟨ranks, state, run, sim⟩ := run_of_reachable reached
    exact completes ranks state run (sim.stuck_iff.mpr stuck)
  · intro never ranks state run stuck
    obtain ⟨abs, reached, sim⟩ := reachable_of_run run
    exact never abs reached (sim.stuck_iff.mp stuck)

local instance one_rank : NeZero 1 := ⟨by decide⟩

/-- One rank that signals itself twice and then waits for both signals. -/
def selfPuts : Fin 1 → List (RmaLaunch 1) := fun _ =>
  [.put [⟨0, 0, 0, true⟩], .put [⟨0, 0, 0, true⟩], .wait ⟨0, [⟨0, 0, 2⟩]⟩]

theorem selfPuts_run_isSome : ∀ k, k ≤ 5 → (rmaCeRun selfPuts (replicate k 0)).isSome := by decide +kernel

theorem selfPuts_eager {k : Nat} {state : RmaCeState 1} (run : rmaCeRun selfPuts (replicate k 0) = some state) :
    ¬ RmaCeStuck selfPuts state := by
  rintro ⟨⟨rank, unfinished⟩, blocked⟩
  obtain rfl : rank = 0 := Subsingleton.elim _ _
  have short : k ≤ 5 := by
    by_contra long
    have split : replicate k (0 : Fin 1) = replicate 6 0 ++ replicate (k - 6) 0 := by
      rw [← replicate_add, Nat.add_sub_cancel' (by omega)]
    rw [split] at run
    cases run
  rcases short.lt_or_eq with less | rfl
  · have next := selfPuts_run_isSome (k + 1) less
    rw [rmaCeRun, replicate_succ'] at next
    rw [rmaCeRun] at run
    simp [run, blocked 0 unfinished] at next
  · cases run
    exact absurd unfinished (by decide +kernel)

/-- Outside of a graph the rank is done after its five operations. In a graph its
second put waits for an acknowledgement that only its own wait would give. -/
theorem self_puts_block_in_graph : EagerCompletes selfPuts ∧ ¬ CapturedCompletes selfPuts := by
  refine ⟨fun ranks state run => ?_, fun completes => ?_⟩
  · have alone : ranks = replicate ranks.length 0 :=
      eq_replicate_iff.mpr ⟨rfl, fun rank _ => Subsingleton.elim rank 0⟩
    rw [alone] at run
    exact selfPuts_eager run
  · refine completes (replicate 3 0) _ rfl ⟨⟨0, by decide +kernel⟩, fun rank _ => ?_⟩
    obtain rfl : rank = 0 := Subsingleton.elim _ _
    rfl

end NcclCore.RmaCaptureProofs
