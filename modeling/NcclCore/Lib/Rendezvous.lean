import Mathlib.Order.WellFounded

/-! Parties that run programs of meetings. A program is a sequence of stages; in
a stage every lane runs its batches in order, and the next stage starts when all
lanes are through. A meeting has two parties and takes place when both have it in
the batch they are running on one lane. If all programs follow one order of the
meetings, no party waits forever. -/
namespace NcclCore.Lib
open Function
variable {Party Lane Meeting : Type}

structure Rendezvous (Party Lane Meeting : Type) where
  program : Party → List (Lane → List (List Meeting))
  left : Meeting → Party
  right : Meeting → Party

namespace Rendezvous

/-- The stage each party has reached, the batch of each lane, and which meetings
took place. -/
structure State (Party Lane Meeting : Type) where
  stage : Party → Nat
  batch : Party → Lane → Nat
  held : Meeting → Prop

def State.initial : State Party Lane Meeting := ⟨fun _ => 0, fun _ _ => 0, fun _ => False⟩

def State.meet (state : State Party Lane Meeting) (meeting : Meeting) : State Party Lane Meeting :=
  { state with held := fun other => other = meeting ∨ state.held other }

section
variable [DecidableEq Party] [DecidableEq Lane]
variable (state : State Party Lane Meeting)

def State.nextBatch (party : Party) (lane : Lane) : State Party Lane Meeting :=
  { state with
    batch := update state.batch party (update (state.batch party) lane (state.batch party lane + 1)) }

def State.nextStage (party : Party) : State Party Lane Meeting :=
  { state with
    stage := update state.stage party (state.stage party + 1)
    batch := update state.batch party fun _ => 0 }

theorem State.nextBatch_batch (party other : Party) (lane lane' : Lane) :
    (state.nextBatch party lane).batch other lane' =
      state.batch other lane' + if other = party ∧ lane' = lane then 1 else 0 := by
  by_cases same : other = party
  · subst same
    by_cases same' : lane' = lane
    · subst same'
      simp [nextBatch]
    · simp [nextBatch, same']
  · simp [nextBatch, same]

end

variable (net : Rendezvous Party Lane Meeting)

/-- The batches of a lane in a stage; none behind the last stage. -/
def batches (party : Party) (stage : Nat) (lane : Lane) : List (List Meeting) :=
  match (net.program party)[stage]? with
  | none => []
  | some lanes => lanes lane

/-- A meeting stands in this batch. -/
def InBatch (party : Party) (stage : Nat) (lane : Lane) (batch : Nat) (meeting : Meeting) : Prop :=
  ∃ members, (net.batches party stage lane)[batch]? = some members ∧ meeting ∈ members

def Occurs (party : Party) (lane : Lane) (meeting : Meeting) : Prop :=
  ∃ stage batch, net.InBatch party stage lane batch meeting

/-- A meeting stands in the batch a party is running. -/
def Current (state : State Party Lane Meeting) (party : Party) (lane : Lane) (meeting : Meeting) : Prop :=
  net.InBatch party (state.stage party) lane (state.batch party lane) meeting

section
variable [DecidableEq Party] [DecidableEq Lane]

inductive Step : State Party Lane Meeting → State Party Lane Meeting → Prop where
  | meet {state : State Party Lane Meeting} {lane : Lane} {meeting : Meeting} (new : ¬ state.held meeting)
      (left : net.Current state (net.left meeting) lane meeting)
      (right : net.Current state (net.right meeting) lane meeting) :
      Step state (state.meet meeting)
  | nextBatch {state : State Party Lane Meeting} {party : Party} {lane : Lane}
      (more : state.batch party lane < (net.batches party (state.stage party) lane).length)
      (finished : ∀ meeting, net.Current state party lane meeting → state.held meeting) :
      Step state (state.nextBatch party lane)
  | nextStage {state : State Party Lane Meeting} {party : Party}
      (more : state.stage party < (net.program party).length)
      (finished : ∀ lane, (net.batches party (state.stage party) lane).length ≤ state.batch party lane) :
      Step state (state.nextStage party)

def Reachable (state : State Party Lane Meeting) : Prop := Relation.ReflTransGen net.Step .initial state

end

/-- What a party has left behind took place. -/
structure Passed (state : State Party Lane Meeting) : Prop where
  stages : ∀ party stage lane batch meeting, stage < state.stage party →
    net.InBatch party stage lane batch meeting → state.held meeting
  batches : ∀ party lane batch meeting, batch < state.batch party lane →
    net.InBatch party (state.stage party) lane batch meeting → state.held meeting

/-- The programs follow one order: a stage comes before the next on all lanes,
and a batch before the next on its lane. -/
structure Ordered {Key : Type} [LT Key] (key : Meeting → Key) : Prop where
  stages : ∀ party stage stage' lane lane' batch batch' meeting meeting', stage < stage' →
    net.InBatch party stage lane batch meeting → net.InBatch party stage' lane' batch' meeting' →
    key meeting < key meeting'
  batches : ∀ party stage lane batch batch' meeting meeting', batch < batch' →
    net.InBatch party stage lane batch meeting → net.InBatch party stage lane batch' meeting' →
    key meeting < key meeting'

variable {net}

theorem InBatch.stage_lt (inside : net.InBatch party stage lane batch meeting) :
    stage < (net.program party).length := by
  obtain ⟨members, found, -⟩ := inside
  by_contra late
  rw [batches, List.getElem?_eq_none (Nat.not_lt.mp late)] at found
  cases found

theorem InBatch.batch_lt (inside : net.InBatch party stage lane batch meeting) :
    batch < (net.batches party stage lane).length := by
  obtain ⟨members, found, -⟩ := inside
  exact (List.getElem?_eq_some_iff.mp found).1

variable [DecidableEq Party] [DecidableEq Lane] {state next : State Party Lane Meeting}

theorem Passed.step (passed : net.Passed state) (step : net.Step state next) : net.Passed next := by
  cases step with
  | meet =>
    constructor
    · intro party stage lane batch other early inside
      exact .inr (passed.stages party stage lane batch other early inside)
    · intro party lane batch other early inside
      exact .inr (passed.batches party lane batch other early inside)
  | @nextBatch party lane more finished =>
    refine ⟨passed.stages, fun other lane' batch meeting early inside => ?_⟩
    rw [State.nextBatch_batch] at early
    by_cases old : batch < state.batch other lane'
    · exact passed.batches other lane' batch meeting old inside
    · split at early
      next here =>
        obtain ⟨rfl, rfl⟩ := here
        obtain rfl : batch = state.batch other lane' := by omega
        exact finished meeting inside
      · exact absurd early old
  | @nextStage party more finished =>
    constructor
    · intro other stage lane batch meeting early inside
      by_cases old : stage < state.stage other
      · exact passed.stages other stage lane batch meeting old inside
      · by_cases same : other = party
        · subst same
          have last : stage < state.stage other + 1 := by simpa [State.nextStage] using early
          obtain rfl : stage = state.stage other := by omega
          exact passed.batches other lane batch meeting (inside.batch_lt.trans_le (finished lane)) inside
        · exact absurd (by simpa [State.nextStage, same] using early) old
    · intro other lane batch meeting early inside
      by_cases same : other = party
      · subst same
        simp [State.nextStage] at early
      · simp only [State.nextStage, update_of_ne same] at early inside
        exact passed.batches other lane batch meeting early inside

theorem Reachable.passed (reached : net.Reachable state) : net.Passed state := by
  induction reached with
  | refl => exact ⟨fun _ _ _ _ _ early => (nomatch early), fun _ _ _ _ early => nomatch early⟩
  | tail _ step ih => exact ih.step step

variable [LT Key] {key : Meeting → Key}

/-- A party moves on, or has reached the meeting, if everything before it took
place. -/
theorem Passed.step_or_current (passed : net.Passed state) (ordered : net.Ordered key)
    (occurs : net.Occurs party lane meeting) (new : ¬ state.held meeting)
    (before : ∀ other lane', net.Occurs party lane' other → key other < key meeting → state.held other) :
    (∃ next, net.Step state next) ∨ net.Current state party lane meeting := by
  obtain ⟨stage, batch, inside⟩ := occurs
  rcases lt_trichotomy stage (state.stage party) with early | rfl | late
  · exact absurd (passed.stages party stage lane batch meeting early inside) new
  · rcases lt_trichotomy batch (state.batch party lane) with early | rfl | late
    · exact absurd (passed.batches party lane batch meeting early inside) new
    · exact .inr inside
    · refine .inl ⟨_, .nextBatch (late.trans inside.batch_lt) fun other current => ?_⟩
      exact before other lane ⟨_, _, current⟩ (ordered.batches _ _ _ _ _ _ _ late current inside)
  · left
    by_cases finished : ∀ lane, (net.batches party (state.stage party) lane).length ≤ state.batch party lane
    · exact ⟨_, .nextStage (late.trans inside.stage_lt) finished⟩
    · obtain ⟨lane', open'⟩ := not_forall.mp finished
      refine ⟨_, .nextBatch (Nat.not_le.mp open') fun other current => ?_⟩
      exact before other lane' ⟨_, _, current⟩ (ordered.stages _ _ _ _ _ _ _ _ _ late current inside)

/-- Programs that follow one order never get stuck before a meeting that both
parties have on one lane. -/
theorem Reachable.not_stuck [WellFoundedLT Key] (reached : net.Reachable state) (ordered : net.Ordered key)
    (paired : ∀ party lane meeting, net.Occurs party lane meeting →
      ∃ lane', net.Occurs (net.left meeting) lane' meeting ∧ net.Occurs (net.right meeting) lane' meeting)
    (occurs : net.Occurs party lane meeting) (new : ¬ state.held meeting) : ∃ next, net.Step state next := by
  -- on the key: a meeting before it that did not take place gives the step, or there is none
  induction value : key meeting using WellFoundedLT.induction generalizing party lane meeting with
  | ind value ih =>
    subst value
    have passed := reached.passed
    by_cases before : ∃ party' other lane', net.Occurs party' lane' other ∧ key other < key meeting ∧ ¬ state.held other
    · obtain ⟨party', other, lane', occurs', less, new'⟩ := before
      exact ih _ less occurs' new' rfl
    · have allHeld : ∀ party' other lane', net.Occurs party' lane' other →
          key other < key meeting → state.held other := by
        intro party' other lane' occurs' less
        by_contra new'
        exact before ⟨party', other, lane', occurs', less, new'⟩
      obtain ⟨lane', onLeft, onRight⟩ := paired party lane meeting occurs
      rcases passed.step_or_current ordered onLeft new (allHeld _) with step | left
      · exact step
      rcases passed.step_or_current ordered onRight new (allHeld _) with step | right
      · exact step
      exact ⟨_, .meet new left right⟩

end Rendezvous
end NcclCore.Lib
