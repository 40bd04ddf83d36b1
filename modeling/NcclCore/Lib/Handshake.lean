import NcclCore.Lib.Runs

/-! Parties that run programs of puts and takes on slots. A slot has one party
that puts and one that takes, holds at most one thing, and has two flags: one that
it is free for a put and one that it is ready for a take. An event waits for its
flag, clears it and sets the other. The parties cannot get stuck exactly when the
events can be ordered: along every program, each take behind its put, and each
further put on a slot behind the take of the one before. -/
namespace NcclCore.Lib.Handshake
open Function List

inductive Side where
  | put
  | take
  deriving DecidableEq

def Side.other : Side → Side
  | .put => .take
  | .take => .put

theorem Side.other_ne (side : Side) : side.other ≠ side := by cases side <;> decide

structure Event (Slot : Type) where
  side : Side
  slot : Slot
  deriving DecidableEq

/-- How far a party is in its event. -/
inductive Phase where
  | waiting
  | claimed
  | cleared
  deriving DecidableEq

/-- The parties of every slot, and what each party does. -/
structure Net (Party Slot : Type) where
  owner : Side → Slot → Party
  program : Party → List (Event Slot)
  owned : ∀ party, ∀ event ∈ program party, owner event.side event.slot = party

/-- How many events each party has finished, how far it is in the next, and the flag
that each side of a slot waits for. -/
structure State (Party Slot : Type) where
  done : Party → Nat
  phase : Party → Phase
  ready : Side → Slot → Bool

variable {Party Slot : Type}

def State.initial : State Party Slot := ⟨fun _ => 0, fun _ => .waiting, fun side _ => side == .put⟩

def State.enter [DecidableEq Party] (state : State Party Slot) (party : Party) (phase : Phase) : State Party Slot :=
  { state with phase := update state.phase party phase }

def State.finish [DecidableEq Party] (state : State Party Slot) (party : Party) : State Party Slot :=
  { state with
    done := update state.done party (state.done party + 1)
    phase := update state.phase party .waiting }

/-- A flag gets a value. -/
def State.setReady [DecidableEq Slot] (state : State Party Slot) (side : Side) (slot : Slot) (value : Bool) :
    State Party Slot :=
  { state with ready := update state.ready side (update (state.ready side) slot value) }

theorem State.setReady_ready [DecidableEq Slot] (state : State Party Slot) (side side' : Side)
    (slot slot' : Slot) (value : Bool) :
    (state.setReady side slot value).ready side' slot' =
      if side' = side ∧ slot' = slot then value else state.ready side' slot' := by
  by_cases sides : side' = side
  · subst sides
    by_cases slots : slot' = slot <;> simp [setReady, slots]
  · simp [setReady, sides]

namespace Net
variable (net : Net Party Slot) (state : State Party Slot)

/-- The event a party is in. -/
def current (party : Party) : Option (Event Slot) := (net.program party)[state.done party]?

variable {net state} in
theorem current_owner (here : net.current state party = some event) : net.owner event.side event.slot = party :=
  net.owned party event (mem_of_getElem? here)

variable [DecidableEq Slot]

section
variable [DecidableEq Party]

/-- What a party does next, if it is not finished or waiting. -/
def step (party : Party) : Option (State Party Slot) := do
  let event ← net.current state party
  match state.phase party with
  | .waiting => if state.ready event.side event.slot then some (state.enter party .claimed) else none
  | .claimed => some ((state.enter party .cleared).setReady event.side event.slot false)
  | .cleared => some ((state.finish party).setReady event.side.other event.slot true)

def Step (state next : State Party Slot) : Prop := ∃ party, net.step state party = some next

def Reachable : Prop := Relation.ReflTransGen net.Step .initial state

def Unfinished (party : Party) : Prop := state.done party < (net.program party).length

/-- Somebody is unfinished and nobody can go on. -/
def Stuck : Prop := (∃ party, net.Unfinished state party) ∧ ∀ party, net.step state party = none

end

/-- The events on a side of a slot among the first of their party. -/
def count (side : Side) (slot : Slot) (length : Nat) : Nat :=
  ((net.program (net.owner side slot)).take length).count ⟨side, slot⟩

/-- The events on a side of a slot that are finished. -/
def finished (side : Side) (slot : Slot) : Nat := net.count side slot (state.done (net.owner side slot))

/-- How far the event under way on a side of a slot is, if there is one. -/
def phaseAt (side : Side) (slot : Slot) : Phase :=
  if net.current state (net.owner side slot) = some ⟨side, slot⟩ then state.phase (net.owner side slot) else .waiting

/-- It is the turn of a side of a slot. -/
def Turn (slot : Slot) : Side → Prop
  | .put => net.finished state .put slot = net.finished state .take slot
  | .take => net.finished state .put slot = net.finished state .take slot + 1

/-- What holds of a slot. -/
structure SlotOk (slot : Slot) : Prop where
  turns : net.Turn state slot .put ∨ net.Turn state slot .take
  busy : ∀ side, net.phaseAt state side slot ≠ .waiting → net.Turn state slot side
  ready : ∀ side, state.ready side slot = true ↔ net.Turn state slot side ∧ net.phaseAt state side slot ≠ .cleared

/-- The number of the event of the other side that an event waits for: a take for
the put of its number, a put for the take before. -/
def needs (side : Side) (number : Nat) : Option Nat :=
  match side, number with
  | .take, number => some number
  | .put, 0 => none
  | .put, number + 1 => some number

/-- Times for the events along the programs, each behind the event of the other side
that it waits for. -/
structure Ordered (time : Party → Nat → Nat) : Prop where
  along : ∀ party {i j}, i < j → j < (net.program party).length → time party i < time party j
  behind : ∀ party k event, (net.program party)[k]? = some event →
    ∀ number, needs event.side (net.count event.side event.slot k) = some number →
    ∃ k', (net.program (net.owner event.side.other event.slot))[k']? = some ⟨event.side.other, event.slot⟩ ∧
      net.count event.side.other event.slot k' = number ∧
      time (net.owner event.side.other event.slot) k' < time party k

variable {net state} {party : Party} {event : Event Slot} {next : State Party Slot}

/-! ### One step -/

/-- What a step does: it moves one event on and changes one flag. -/
structure Moves (net : Net Party Slot) (state : State Party Slot) (party : Party) (event : Event Slot) (phase : Phase)
    (ended : Bool) (next : State Party Slot) : Prop where
  current : net.current state party = some event
  owner : net.owner event.side event.slot = party
  finished : ∀ side slot, net.finished next side slot =
    net.finished state side slot + if ended ∧ (⟨side, slot⟩ : Event Slot) = event then 1 else 0
  phaseAt : ∀ side slot, net.phaseAt next side slot =
    if (⟨side, slot⟩ : Event Slot) = event then phase else net.phaseAt state side slot

theorem count_succ {length : Nat} (here : (net.program (net.owner side slot))[length]? = some event) :
    net.count side slot (length + 1) =
      net.count side slot length + if (⟨side, slot⟩ : Event Slot) = event then 1 else 0 := by
  obtain ⟨bound, rfl⟩ := List.getElem?_eq_some_iff.mp here
  rw [count, take_succ_eq_append_getElem bound, count_append, count_singleton]
  congr 1
  by_cases same : (⟨side, slot⟩ : Event Slot) = (net.program (net.owner side slot))[length]
  · rw [if_pos same, if_pos (by rw [← same]; exact beq_self_eq_true _)]
  · rw [if_neg same, if_neg fun equal => same (eq_of_beq equal).symm]

section
variable (here : net.current state party = some event)
include here

theorem phaseAt_current :
    net.phaseAt state event.side event.slot = state.phase party := by
  simp [phaseAt, current_owner here, here]

/-- A party is in no event but its current one. -/
theorem phaseAt_of_ne (owns : net.owner side slot = party) (other : (⟨side, slot⟩ : Event Slot) ≠ event) :
    net.phaseAt state side slot = .waiting := by
  rw [phaseAt, owns, here, if_neg fun same => other (Option.some.inj same).symm]

variable [DecidableEq Party]

theorem moves_enter (phase : Phase) :
    Moves net state party event phase false (state.enter party phase) := by
  refine ⟨here, current_owner here, fun side slot => by simp [finished, State.enter], fun side slot => ?_⟩
  have still : net.current (state.enter party phase) party = some event := here
  by_cases same : (⟨side, slot⟩ : Event Slot) = event
  · subst same
    rw [if_pos rfl, phaseAt_current still]
    exact update_self _ _ _
  · rw [if_neg same]
    by_cases owns : net.owner side slot = party
    · rw [phaseAt_of_ne here owns same, phaseAt_of_ne still owns same]
    · have same : (state.enter party phase).phase (net.owner side slot) = state.phase (net.owner side slot) :=
        update_of_ne owns _ _
      rw [phaseAt, same]
      rfl

theorem moves_finish :
    Moves net state party event .waiting true (state.finish party) := by
  have elsewhere : ∀ {side slot}, net.owner side slot ≠ party → (⟨side, slot⟩ : Event Slot) ≠ event := by
    rintro side slot owns rfl
    exact owns (current_owner here)
  have same : ∀ {other}, other ≠ party → (state.finish party).done other = state.done other :=
    fun apart => update_of_ne apart _ _
  refine ⟨here, current_owner here, fun side slot => ?_, fun side slot => ?_⟩
  · by_cases owns : net.owner side slot = party
    · subst owns
      have done : (state.finish (net.owner side slot)).done (net.owner side slot) = _ := update_self _ _ _
      rw [finished, done, count_succ here, finished]
      simp
    · simp [finished, same owns, elsewhere owns]
  · by_cases owns : net.owner side slot = party
    · have waits : net.phaseAt (state.finish party) side slot = .waiting := by
        have phase : (state.finish party).phase (net.owner side slot) = .waiting := by
          rw [owns]
          exact update_self _ _ _
        rw [phaseAt, phase, ite_self]
      rw [waits]
      split
      · rfl
      next other =>
        exact (phaseAt_of_ne here owns other).symm
    · have phase : (state.finish party).phase (net.owner side slot) = state.phase (net.owner side slot) :=
        update_of_ne owns _ _
      rw [if_neg (elsewhere owns), phaseAt, phase, current, same owns]
      rfl

theorem blocked_cases (blocked : net.step state party = none) :
    net.phaseAt state event.side event.slot = .waiting ∧ state.ready event.side event.slot = false := by
  rw [phaseAt_current here]
  simp only [step, here, Option.bind_eq_bind, Option.bind_some] at blocked
  cases phase : state.phase party with
  | waiting =>
    rw [phase] at blocked
    refine ⟨rfl, ?_⟩
    by_contra ready
    simp [ready] at blocked
  | _ =>
    rw [phase] at blocked
    cases blocked

end

variable [DecidableEq Party]

/-- A step either claims, clears or ends the current event. -/
theorem step_cases (taken : net.step state party = some next) :
    ∃ event phase ended, Moves net state party event phase ended next ∧
    (phase = .claimed ∧ ended = false ∧ state.phase party = .waiting ∧
        state.ready event.side event.slot = true ∧ next = state.enter party .claimed ∨
      phase = .cleared ∧ ended = false ∧ state.phase party = .claimed ∧
        next = (state.enter party .cleared).setReady event.side event.slot false ∨
      phase = .waiting ∧ ended = true ∧ state.phase party = .cleared ∧
        next = (state.finish party).setReady event.side.other event.slot true) := by
  obtain ⟨event, here, rest⟩ := Option.bind_eq_some_iff.mp taken
  refine ⟨event, ?_⟩
  split at rest
  next now =>
    split at rest
    next ready =>
      cases rest
      exact ⟨.claimed, false, moves_enter here _, .inl ⟨rfl, rfl, now, ready, rfl⟩⟩
    next => cases rest
  next now =>
    cases rest
    exact ⟨.cleared, false, { moves_enter here .cleared with }, .inr (.inl ⟨rfl, rfl, now, rfl⟩)⟩
  next now =>
    cases rest
    exact ⟨.waiting, true, { moves_finish here with }, .inr (.inr ⟨rfl, rfl, now, rfl⟩)⟩

/-! ### Slots -/

omit [DecidableEq Party] in
theorem not_both_turns (turn : net.Turn state slot side) : ¬ net.Turn state slot side.other := by
  intro other
  cases side <;> simp only [Turn, Side.other] at turn other <;> omega

omit [DecidableEq Party] in
theorem SlotOk.turn_other (ok : net.SlotOk state slot) (notTurn : ¬ net.Turn state slot side) :
    net.Turn state slot side.other := by
  cases side with
  | put => exact ok.turns.resolve_left notTurn
  | take => exact ok.turns.resolve_right notTurn

omit [DecidableEq Party] in
/-- The turn of a slot depends on its finished events. -/
theorem turn_congr (same : ∀ side, net.finished next side slot = net.finished state side slot) (side : Side) :
    net.Turn next slot side ↔ net.Turn state slot side := by
  cases side <;> simp [Turn, same]

omit [DecidableEq Party] in
/-- What has to be shown of a slot, for one side and the other. -/
theorem SlotOk.of_side (turns : net.Turn state slot side ∨ net.Turn state slot side.other)
    (busy : net.phaseAt state side slot ≠ .waiting → net.Turn state slot side)
    (busy' : net.phaseAt state side.other slot ≠ .waiting → net.Turn state slot side.other)
    (ready : state.ready side slot = true ↔ net.Turn state slot side ∧ net.phaseAt state side slot ≠ .cleared)
    (ready' : state.ready side.other slot = true ↔
      net.Turn state slot side.other ∧ net.phaseAt state side.other slot ≠ .cleared) : net.SlotOk state slot := by
  cases side with
  | put => exact ⟨turns, fun side => by cases side <;> assumption, fun side => by cases side <;> assumption⟩
  | take => exact ⟨turns.symm, fun side => by cases side <;> assumption, fun side => by cases side <;> assumption⟩

theorem SlotOk.step (ok : net.SlotOk state slot) (taken : net.step state party = some next) :
    net.SlotOk next slot := by
  obtain ⟨⟨side, slot'⟩, phase, ended, moves, kind⟩ := step_cases taken
  have before := phaseAt_current moves.current
  by_cases here : slot = slot'
  · subst here
    have phaseSide : net.phaseAt next side slot = phase := by rw [moves.phaseAt, if_pos rfl]
    have other : (⟨side.other, slot⟩ : Event Slot) ≠ ⟨side, slot⟩ := fun same => side.other_ne (Event.mk.inj same).1
    have phaseOther : net.phaseAt next side.other slot = net.phaseAt state side.other slot := by
      rw [moves.phaseAt, if_neg other]
    have countOther : net.finished next side.other slot = net.finished state side.other slot := by
      rw [moves.finished, if_neg fun both => other both.2, add_zero]
    have sameTurns : ended = false → ∀ side', net.Turn next slot side' ↔ net.Turn state slot side' := by
      rintro rfl
      refine turn_congr fun side' => ?_
      simp [moves.finished]
    have turns : net.Turn state slot side ∨ net.Turn state slot side.other := (Classical.em _).imp_right ok.turn_other
    rcases kind with ⟨rfl, rfl, -, ready, rfl⟩ | ⟨rfl, rfl, now, rfl⟩ | ⟨rfl, rfl, now, is⟩
    · have turn := ((ok.ready side).mp ready).1
      have same := sameTurns rfl
      refine .of_side ?_ (fun _ => (same side).mpr turn) ?_ ?_ ?_
      · rwa [same]
      · rw [phaseOther]
        exact ok.busy _
      · rw [phaseSide]
        exact iff_of_true ready ⟨turn, by decide⟩
      · rw [phaseOther]
        exact ok.ready _
    · have turn := ok.busy side (by rw [before, now]; decide)
      have same := sameTurns rfl
      refine .of_side ?_ (fun _ => (same side).mpr turn) ?_ ?_ ?_
      · rwa [same, same]
      · rw [phaseOther]
        exact ok.busy _
      · rw [phaseSide, State.setReady_ready, if_pos ⟨rfl, rfl⟩]
        exact iff_of_false (by decide) fun both => both.2 rfl
      · rw [phaseOther, State.setReady_ready, if_neg fun both => side.other_ne both.1]
        exact ok.ready _
    · have turn := ok.busy side (by rw [before, now]; decide)
      have idle : net.phaseAt state side.other slot = .waiting := by
        by_contra busy
        exact not_both_turns turn (ok.busy _ busy)
      have flags := congrArg State.ready is
      have countSide := moves.finished side slot
      rw [if_pos ⟨rfl, rfl⟩] at countSide
      -- a finished event gives the turn to the other side
      have flipped : net.Turn next slot side.other := by
        cases side <;> simp only [Turn, Side.other] at turn countOther ⊢ <;> omega
      have past : ¬ net.Turn next slot side := fun again => not_both_turns again flipped
      refine .of_side (.inr flipped) (fun busy => absurd phaseSide busy) (fun _ => flipped) ?_ ?_
      · rw [flags, State.setReady_ready, if_neg fun both => side.other_ne both.1.symm]
        exact iff_of_false (fun ready => ((ok.ready _).mp ready).2 (before.trans now)) fun both => past both.1
      · rw [flags, State.setReady_ready, if_pos ⟨rfl, rfl⟩, phaseOther, idle]
        exact iff_of_true rfl ⟨flipped, by decide⟩
  · -- nothing changes on another slot
    have other : ∀ side', (⟨side', slot⟩ : Event Slot) ≠ ⟨side, slot'⟩ := fun side' same => here (Event.mk.inj same).2
    have counts : ∀ side', net.finished next side' slot = net.finished state side' slot := fun side' => by
      rw [moves.finished, if_neg fun both => other side' both.2, add_zero]
    have flags : ∀ side', next.ready side' slot = state.ready side' slot := by
      intro side'
      rcases kind with ⟨-, -, -, -, rfl⟩ | ⟨-, -, -, rfl⟩ | ⟨-, -, -, rfl⟩
      · rfl
      · exact (State.setReady_ready ..).trans (if_neg fun both => here both.2)
      · exact (State.setReady_ready ..).trans (if_neg fun both => here both.2)
    refine ⟨?_, fun side' => ?_, fun side' => ?_⟩
    · rw [turn_congr counts, turn_congr counts]
      exact ok.turns
    · rw [moves.phaseAt, if_neg (other side'), turn_congr counts]
      exact ok.busy side'
    · rw [moves.phaseAt, if_neg (other side'), turn_congr counts, flags]
      exact ok.ready side'

omit [DecidableEq Party] in
theorem slotOk_initial (slot : Slot) : net.SlotOk .initial slot := by
  have none : ∀ side, net.finished .initial side slot = 0 := fun side => by simp [finished, State.initial, count]
  have idle : ∀ side, net.phaseAt .initial side slot = .waiting := fun side => by
    unfold phaseAt
    split <;> rfl
  refine ⟨.inl ?_, fun side busy => absurd (idle side) busy, fun side => ?_⟩
  · rw [Turn, none, none]
  · rw [idle]
    cases side with
    | put => exact iff_of_true rfl ⟨by rw [Turn, none, none], by decide⟩
    | take => exact iff_of_false (by simp [State.initial]) fun both => by simp [Turn, none] at both

/-- In every reachable state every slot is as it should be. -/
theorem Reachable.slotOk (reached : net.Reachable state) (slot : Slot) : net.SlotOk state slot := by
  induction reached with
  | refl => exact slotOk_initial slot
  | tail _ step ih =>
    obtain ⟨party, taken⟩ := step
    exact ih.step taken

/-- Nothing is taken that has not been put. -/
theorem Reachable.takes_le_puts (reached : net.Reachable state) (slot : Slot) :
    net.finished state .take slot ≤ net.finished state .put slot := by
  rcases (reached.slotOk slot).turns with turn | turn <;> simp only [Turn] at turn <;> omega

/-! ### Orders and stuck states -/

omit [DecidableEq Party] in
/-- Where it is not the turn of a side, its next event waits for the next of the
other side. -/
theorem SlotOk.needs_of_not_turn (ok : net.SlotOk state slot) (notTurn : ¬ net.Turn state slot side) :
    needs side (net.finished state side slot) = some (net.finished state side.other slot) := by
  have turn := ok.turn_other notTurn
  cases side with
  | put | take =>
    simp only [Side.other, Turn] at turn ⊢
    rw [turn]
    rfl

omit [DecidableEq Party] in
/-- Where it is the turn of a side, what its next event waits for is finished. -/
theorem needs_lt_of_turn (turn : net.Turn state slot side)
    (waits : needs side (net.finished state side slot) = some number) :
    number < net.finished state side.other slot := by
  cases side with
  | put =>
    simp only [Turn, Side.other] at turn ⊢
    cases counted : net.finished state .put slot with
    | zero =>
      rw [counted] at waits
      cases waits
    | succ =>
      rw [counted] at waits
      cases waits
      omega
  | take =>
    cases waits
    simp only [Turn, Side.other] at turn ⊢
    omega

omit [DecidableEq Party] in
theorem count_mono (net : Net Party Slot) (side : Side) (slot : Slot) (le : short ≤ long) :
    net.count side slot short ≤ net.count side slot long :=
  ((take_prefix_take_left le).sublist).count_le _

variable {time : Party → Nat → Nat}

/-- Parties whose events can be ordered do not get stuck. -/
theorem Ordered.not_stuck (ordered : net.Ordered time) (reached : net.Reachable state) : ¬ net.Stuck state := by
  rintro ⟨⟨first, firstUnfinished⟩, blocked⟩
  -- the unfinished party whose event comes first
  obtain ⟨party, unfinished, least⟩ : ∃ party, net.Unfinished state party ∧
      ∀ other, net.Unfinished state other → time party (state.done party) ≤ time other (state.done other) := by
    classical
    have times : ∃ value party, net.Unfinished state party ∧ time party (state.done party) = value :=
      ⟨_, first, firstUnfinished, rfl⟩
    obtain ⟨party, unfinished, value⟩ := Nat.find_spec times
    exact ⟨party, unfinished, fun other late => value ▸ Nat.find_min' times ⟨other, late, rfl⟩⟩
  obtain ⟨event, here⟩ : ∃ event, net.current state party = some event := ⟨_, getElem?_eq_getElem unfinished⟩
  obtain ⟨waiting, notReady⟩ := blocked_cases here (blocked party)
  have ok := reached.slotOk event.slot
  have notTurn : ¬ net.Turn state event.slot event.side := by
    intro turn
    have ready := (ok.ready event.side).mpr ⟨turn, by rw [waiting]; decide⟩
    rw [ready] at notReady
    cases notReady
  have waits := ok.needs_of_not_turn notTurn
  rw [finished, current_owner here] at waits
  obtain ⟨k, found, number, before⟩ := ordered.behind party _ event here _ waits
  have bound := (List.getElem?_eq_some_iff.mp found).1
  have notYet : state.done (net.owner event.side.other event.slot) ≤ k := by
    by_contra later
    have more := count_mono net event.side.other event.slot (Nat.not_le.mp later)
    rw [count_succ found, number] at more
    exact absurd more (by simp [finished])
  have first := least _ (notYet.trans_lt bound)
  rcases Nat.eq_or_lt_of_le notYet with same | earlier
  · rw [same] at first
    omega
  · have order := ordered.along _ earlier bound
    omega

omit [DecidableEq Party] in
/-- What is counted is there: the event with a number below the count. -/
theorem exists_numbered {number length : Nat} (counted : number < net.count side slot length) :
    ∃ k < length, (net.program (net.owner side slot))[k]? = some ⟨side, slot⟩ ∧ net.count side slot k = number := by
  induction length with
  | zero => simp [count] at counted
  | succ length ih =>
    by_cases before : number < net.count side slot length
    · obtain ⟨k, bound, found, count⟩ := ih before
      exact ⟨k, by omega, found, count⟩
    · cases here : (net.program (net.owner side slot))[length]? with
      | none =>
        have short := getElem?_eq_none_iff.mp here
        rw [count, take_of_length_le (by omega)] at counted before
        exact absurd counted before
      | some event =>
        have more := count_succ here
        by_cases same : (⟨side, slot⟩ : Event Slot) = event
        · rw [if_pos same] at more
          exact ⟨length, Nat.lt_succ_self _, by rw [here, same], by omega⟩
        · rw [if_neg same] at more
          omega

omit [DecidableEq Party] [DecidableEq Slot] in
/-- The party has started an event. -/
def Started (state : State Party Slot) (party : Party) (k : Nat) : Prop :=
  k < state.done party ∨ k = state.done party ∧ state.phase party ≠ .waiting

/-- Times below a bound for the events that have started. -/
structure Timed (net : Net Party Slot) (state : State Party Slot) (time : Party → Nat → Nat) (bound : Nat) : Prop where
  below : ∀ party k, Started state party k → time party k < bound
  along : ∀ party {i j}, i < j → Started state party j → time party i < time party j
  behind : ∀ party k event, (net.program party)[k]? = some event → Started state party k →
    ∀ number, needs event.side (net.count event.side event.slot k) = some number →
    ∃ k', (net.program (net.owner event.side.other event.slot))[k']? = some ⟨event.side.other, event.slot⟩ ∧
      net.count event.side.other event.slot k' = number ∧ Started state (net.owner event.side.other event.slot) k' ∧
      time (net.owner event.side.other event.slot) k' < time party k

/-- Only a claim starts an event. -/
theorem started_step (taken : net.step state party = some next) :
    (∀ other k, Started next other k ↔ Started state other k) ∨
    ∃ event, net.current state party = some event ∧ state.ready event.side event.slot = true ∧
      state.phase party = .waiting ∧
      ∀ other k, Started next other k ↔ Started state other k ∨ other = party ∧ k = state.done party := by
  obtain ⟨event, _, _, moves, ⟨-, -, phase, ready, rfl⟩ | ⟨-, -, phase, rfl⟩ | ⟨-, -, phase, rfl⟩⟩ := step_cases taken
  · refine .inr ⟨event, moves.current, ready, phase, fun other k => ?_⟩
    by_cases same : other = party
    · subst same
      simp [Started, State.enter, phase]
    · simp [Started, State.enter, same]
  all_goals
    refine .inl fun other k => ?_
    by_cases same : other = party
    · subst same
      simp [Started, State.enter, State.finish, State.setReady, phase] <;> omega
    · simp [Started, State.enter, State.finish, State.setReady, same]

theorem Timed.step (timed : net.Timed state time bound) (ok : ∀ slot, net.SlotOk state slot)
    (taken : net.step state party = some next) : ∃ time' bound', net.Timed next time' bound' := by
  rcases started_step taken with same | ⟨event, here, ready, waiting, started⟩
  · refine ⟨time, bound, ?_, ?_, ?_⟩
    · intro other k
      rw [same]
      exact timed.below other k
    · intro other i j before
      rw [same]
      exact timed.along other before
    · intro other k event found
      simp only [same]
      exact timed.behind other k event found
  · -- the new event comes behind all others
    have fresh : ¬ Started state party (state.done party) := by simp [Started, waiting]
    have behindUs : ∀ {other i j}, i < j → Started state other j → Started state other i := by
      rintro other i j before (finished | ⟨current, -⟩)
      · exact .inl (by omega)
      · exact .inl (by omega)
    let time' := update time party (update (time party) (state.done party) bound)
    have new : time' party (state.done party) = bound := by simp [time']
    have old : ∀ {other k}, Started state other k → time' other k = time other k := by
      intro other k was
      by_cases owner : other = party
      · subst owner
        have differ : k ≠ state.done other := fun same => fresh (same ▸ was)
        simp [time', differ]
      · simp [time', owner]
    refine ⟨time', bound + 1, ?_, ?_, ?_⟩
    · intro other k is
      rcases (started other k).mp is with was | ⟨rfl, rfl⟩
      · rw [old was]
        exact Nat.lt_succ_of_lt (timed.below other k was)
      · rw [new]
        exact Nat.lt_succ_self _
    · intro other i j before is
      rcases (started other j).mp is with was | ⟨rfl, rfl⟩
      · rw [old was, old (behindUs before was)]
        exact timed.along other before was
      · rw [new, old (.inl before)]
        exact timed.below other i (.inl before)
    · intro other k event' found is number waits
      rcases (started other k).mp is with was | ⟨rfl, rfl⟩
      · obtain ⟨k', found', counted, was', order⟩ := timed.behind other k event' found was number waits
        exact ⟨k', found', counted, (started _ _).mpr (.inl was'), by rwa [old was, old was']⟩
      · obtain rfl : event = event' := Option.some.inj (here.symm.trans found)
        have turn := (((ok event.slot).ready event.side).mp ready).1
        have counted : number < net.finished state event.side.other event.slot := by
          refine needs_lt_of_turn turn ?_
          rw [finished, current_owner here]
          exact waits
        obtain ⟨k', bound', found', number'⟩ := exists_numbered counted
        refine ⟨k', found', number', (started _ _).mpr (.inl (.inl bound')), ?_⟩
        rw [new, old (.inl bound')]
        exact timed.below _ _ (.inl bound')

theorem Reachable.timed (reached : net.Reachable state) : ∃ time bound, net.Timed state time bound := by
  induction reached with
  | refl =>
    have none : ∀ {party k}, ¬ Started (State.initial : State Party Slot) party k := by simp [Started, State.initial]
    exact ⟨fun _ _ => 0, 0, fun _ _ is => absurd is none, fun _ _ _ _ is => absurd is none,
      fun _ _ _ _ is => absurd is none⟩
  | tail path step ih =>
    obtain ⟨time, bound, timed⟩ := ih
    obtain ⟨party, taken⟩ := step
    exact timed.step (fun slot => Reachable.slotOk path slot) taken

omit [DecidableEq Party] in
/-- Times of a finished run are an order. -/
theorem Timed.ordered (timed : net.Timed state time bound) (finished : ∀ party, ¬ net.Unfinished state party) :
    net.Ordered time := by
  have all : ∀ {party k}, k < (net.program party).length → Started state party k := by
    intro party k inside
    have done := finished party
    unfold Unfinished at done
    exact .inl (by omega)
  refine ⟨fun party i j before inside => timed.along party before (all inside),
    fun party k event found number waits => ?_⟩
  obtain ⟨k', found', counted, -, order⟩ :=
    timed.behind party k event found (all (List.getElem?_eq_some_iff.mp found).1) number waits
  exact ⟨k', found', counted, order⟩

/-- The operations a party has left. -/
def left (net : Net Party Slot) (state : State Party Slot) (party : Party) : Nat :=
  3 * ((net.program party).length - state.done party) -
    match state.phase party with
    | .waiting => 0
    | .claimed => 1
    | .cleared => 2

theorem step_left (taken : net.step state party = some next) :
    net.left next party < net.left state party ∧
      ∀ other, other ≠ party → net.left next other = net.left state other := by
  obtain ⟨event, _, _, moves, kind⟩ := step_cases taken
  have inside := (List.getElem?_eq_some_iff.mp moves.current).1
  unfold left
  rcases kind with ⟨-, -, phase, -, rfl⟩ | ⟨-, -, phase, rfl⟩ | ⟨-, -, phase, rfl⟩ <;>
    refine ⟨?_, fun other differ => by simp [State.enter, State.finish, State.setReady, update_of_ne differ]⟩ <;>
    simp only [State.enter, State.finish, State.setReady, update_self, phase] <;>
    omega

/-- The parties cannot get stuck exactly when their events can be ordered. -/
theorem not_stuck_iff [Fintype Party] (net : Net Party Slot) :
    (∀ state, net.Reachable state → ¬ net.Stuck state) ↔ ∃ time, net.Ordered time := by
  constructor
  · intro never
    obtain ⟨final, path, ends⟩ := exists_stuck net.Step (fun state => ∑ party, net.left state party)
      (fun ⟨party, taken⟩ => sum_lt_of_one party (step_left taken).1 (step_left taken).2) .initial
    have finished : ∀ party, ¬ net.Unfinished final party := by
      intro party unfinished
      refine never final path ⟨⟨party, unfinished⟩, fun other => ?_⟩
      cases taken : net.step final other with
      | none => rfl
      | some next => exact absurd ⟨other, taken⟩ (ends next)
    obtain ⟨time, bound, timed⟩ := Reachable.timed path
    exact ⟨time, timed.ordered finished⟩
  · rintro ⟨time, ordered⟩ state reached
    exact ordered.not_stuck reached

end Net
end NcclCore.Lib.Handshake
