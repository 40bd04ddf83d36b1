import Mathlib.Algebra.Order.BigOperators.Group.Finset

/-! Runs of a system that takes one event after the other, where an event may be
impossible, and systems whose steps lower a measure. -/
namespace NcclCore.Lib
open List
variable {State Event : Type}

/-- A step that is taken under a condition. -/
theorem of_ite_some [Decidable allowed] (taken : (if allowed then some x else none) = some y) :
    allowed ∧ y = x := by
  obtain ⟨holds, is⟩ := Option.ite_none_right_eq_some.mp taken
  exact ⟨holds, (Option.some.inj is).symm⟩

variable {step : State → Event → Option State}

/-- A run of events is a path of steps. -/
theorem foldlM_eq_some_iff :
    (∃ events : List Event, events.foldlM step start = some final) ↔
      Relation.ReflTransGen (fun state next => ∃ event, step state event = some next) start final := by
  constructor
  · rintro ⟨events, run⟩
    induction events generalizing start with
    | nil =>
      cases run
      exact .refl
    | cons event rest ih =>
      obtain ⟨next, first, later⟩ := Option.bind_eq_some_iff.mp run
      exact .head ⟨event, first⟩ (ih later)
  · intro path
    induction path using Relation.ReflTransGen.head_induction_on with
    | refl => exact ⟨[], rfl⟩
    | head first _ ih =>
      obtain ⟨event, taken⟩ := first
      obtain ⟨events, run⟩ := ih
      refine ⟨event :: events, ?_⟩
      rw [foldlM_cons, taken]
      exact run

/-- What holds at the start and is kept by every step holds at the end of a run. -/
theorem foldlM_invariant {holds : State → Prop} {start final : State}
    {events : List Event} (run : events.foldlM step start = some final) (first : holds start)
    (kept : ∀ {state event next}, holds state → step state event = some next → holds next) : holds final := by
  have path := foldlM_eq_some_iff.mp ⟨events, run⟩
  clear run
  induction path with
  | refl => exact first
  | tail _ taken ih =>
    obtain ⟨event, taken⟩ := taken
    exact kept ih taken

/-- Two systems whose steps keep a relation, and are possible in the same places, run
alike. -/
theorem foldlM_rel
    (steps : ∀ {state state'}, related state state' →
      ∀ event, Option.Rel related (step state event) (step' state' event))
    (starts : related start start') (events : List Event) :
    Option.Rel related (events.foldlM step start) (events.foldlM step' start') := by
  induction events generalizing start start' with
  | nil => exact .some starts
  | cons event rest ih =>
    rw [foldlM_cons, foldlM_cons]
    have rel := steps starts event
    generalize step start event = next, step' start' event = next' at rel ⊢
    cases rel with
    | none => exact .none
    | some later => exact ih later

/-- A system whose steps lower a measure ends in a state without a step. -/
theorem exists_stuck (step : State → State → Prop) (measure : State → Nat)
    (lowers : ∀ {state next}, step state next → measure next < measure state) (start : State) :
    ∃ final, Relation.ReflTransGen step start final ∧ ∀ next, ¬ step final next := by
  induction size : measure start using Nat.strongRecOn generalizing start with
  | _ size ih =>
    by_cases moves : ∃ next, step start next
    · obtain ⟨next, taken⟩ := moves
      obtain ⟨final, path, stuck⟩ := ih (measure next) (size ▸ lowers taken) next rfl
      exact ⟨final, .head taken path, stuck⟩
    · exact ⟨start, .refl, fun next taken => moves ⟨next, taken⟩⟩

section
variable {step : State → Event → Option State} {works : Event → Prop} {start final next : State} {events : List Event}

/-- A run whose events are all of a kind. -/
def RunsWith (step : State → Event → Option State) (works : Event → Prop) (start : State) (events : List Event)
    (final : State) : Prop :=
  (∀ event ∈ events, works event) ∧ events.foldlM step start = some final

theorem RunsWith.snoc (run : RunsWith step works start events final) (kind : works event)
    (taken : step final event = some next) : RunsWith step works start (events ++ [event]) next := by
  refine ⟨fun other member => ?_, ?_⟩
  · rcases mem_append.mp member with before | last
    · exact run.1 other before
    · rw [mem_singleton.mp last]
      exact kind
  · rw [foldlM_append, run.2]
    simpa using taken

/-- What every such run keeps, event by event. -/
theorem RunsWith.induction {motive : List Event → State → Prop} (first : motive [] start)
    (more : ∀ events state event next, RunsWith step works start events state → motive events state → works event →
      step state event = some next → motive (events ++ [event]) next)
    (run : RunsWith step works start events final) : motive events final := by
  induction events using reverseRecOn generalizing final with
  | nil =>
    cases run.2
    exact first
  | append_singleton events event ih =>
    obtain ⟨kinds, taken⟩ := run
    rw [foldlM_append] at taken
    obtain ⟨before, run', last⟩ := Option.bind_eq_some_iff.mp taken
    have earlier : RunsWith step works start events before :=
      ⟨fun other member => kinds other (mem_append_left _ member), run'⟩
    refine more events before event final earlier (ih earlier) (kinds event (by simp)) ?_
    simpa using last

/-- What one kind of event sets and no event clears. -/
theorem foldlM_set_iff (holds : State → Prop) (clear : ¬ holds start)
    (sets : ∀ {events : List Event} {state event next}, events.foldlM step start = some state →
      step state event = some next → (holds next ↔ holds state ∨ event = setting))
    (run : events.foldlM step start = some final) :
    holds final ↔ setting ∈ events := by
  have all : RunsWith step (fun _ => True) start events final := ⟨fun _ _ => trivial, run⟩
  refine all.induction (motive := fun events state => holds state ↔ setting ∈ events) (by simp [clear]) ?_
  intro events state event next run ih _ taken
  rw [sets run.2 taken, ih, mem_append, mem_singleton, eq_comm (a := event)]

variable (measure : State → Nat) (lowers : ∀ {events state event next}, RunsWith step works start events state →
  works event → step state event = some next → measure next < measure state)
include lowers

/-- A run is no longer than what its events lower. -/
theorem RunsWith.length_le (run : RunsWith step works start events final) :
    events.length + measure final ≤ measure start := by
  refine run.induction (motive := fun events state => events.length + measure state ≤ measure start) (by simp) ?_
  intro events state event next run bound kind taken
  have := lowers run kind taken
  rw [length_append, length_singleton]
  omega

/-- There is a run that cannot go on. -/
theorem RunsWith.exists_maximal :
    ∃ events final, RunsWith step works start events final ∧ ∀ event, works event → step final event = none := by
  obtain ⟨⟨⟨events, final⟩, run⟩, -, stuck⟩ := exists_stuck
    (fun before after : { run : List Event × State // RunsWith step works start run.1 run.2 } =>
      ∃ event, works event ∧ step before.1.2 event = some after.1.2)
    (fun run => measure run.1.2) (fun {before _} ⟨_, kind, taken⟩ => lowers before.2 kind taken)
    ⟨([], start), ⟨fun _ member => (nomatch member), rfl⟩⟩
  refine ⟨events, final, run, fun event kind => ?_⟩
  cases taken : step final event with
  | none => rfl
  | some next => exact absurd ⟨event, kind, taken⟩ (stuck ⟨(events ++ [event], next), run.snoc kind taken⟩)

end

/-- A sum is lowered by lowering one of its terms. -/
theorem sum_lt_of_one [Fintype ι] {f g : ι → Nat} (i : ι) (less : f i < g i) (same : ∀ j, j ≠ i → f j = g j) :
    ∑ j, f j < ∑ j, g j := by
  refine Finset.sum_lt_sum (fun j _ => ?_) ⟨i, Finset.mem_univ _, less⟩
  by_cases here : j = i
  · rw [here]
    exact less.le
  · exact le_of_eq (same j here)

end NcclCore.Lib
