import Mathlib.Logic.Function.Basic
import Mathlib.Logic.Relation

/-! Ranks that exchange by all-gathers. Between two of them each rank acts on its own. A
rank that waits in an all-gather goes on when every rank has reached one, with what all of
them offered, and sooner or later than the others. If what the ranks share of their states
(the view) is changed only there, and by all of them in the same way, then two ranks never
differ in it, however they are interleaved. -/
namespace NcclCore.Lib
open Function
variable {Rank State Payload View : Type*}

/-- What a state offers to an all-gather, if it waits in one; what a rank may do on its
own; and how it goes on with what was gathered. -/
structure Gathering (Rank State Payload : Type*) where
  offer : State → Option Payload
  act : Rank → State → State → Prop
  resume : Rank → State → (Rank → Payload) → State → Prop

namespace Gathering

/-- A rank runs, or an all-gather has been completed and the rank has yet to go on. -/
inductive Place (Rank State Payload : Type*) where
  | running (state : State)
  | gathered (state : State) (all : Rank → Payload)

def Place.state : Place Rank State Payload → State
  | .running state => state
  | .gathered state _ => state

variable (net : Gathering Rank State Payload)

inductive Step [DecidableEq Rank] :
    (Rank → Place Rank State Payload) → (Rank → Place Rank State Payload) → Prop
  | act {config : Rank → Place Rank State Payload} (rank : Rank) {state state' : State}
      (runs : config rank = .running state) (acts : net.act rank state state') :
      Step config (update config rank (.running state'))
  | gather (states : Rank → State) (all : Rank → Payload) (offers : ∀ rank, net.offer (states rank) = some (all rank)) :
      Step (fun rank => .running (states rank)) fun rank => .gathered (states rank) all
  | resume {config : Rank → Place Rank State Payload} (rank : Rank) {state state' : State} {all : Rank → Payload}
      (waits : config rank = .gathered state all) (resumes : net.resume rank state all state') :
      Step config (update config rank (.running state'))

def Reachable [DecidableEq Rank] (init : Rank → State) (config : Rank → Place Rank State Payload) : Prop :=
  Relation.ReflTransGen net.Step (fun rank => .running (init rank)) config

variable (inv : Rank → State → Prop) (view : State → View)

/-- The states in which all ranks have reached an all-gather. -/
structure Offered (states : Rank → State) (all : Rank → Payload) : Prop where
  inv : ∀ rank, inv rank (states rank)
  views : ∀ rank other, view (states rank) = view (states other)
  offers : ∀ rank, net.offer (states rank) = some (all rank)

/-- The view changes only when a rank goes on, and then in the same way on all ranks. -/
structure Agreeing : Prop where
  act_inv : ∀ {rank state state'}, inv rank state → net.act rank state state' → inv rank state'
  act_view : ∀ {rank state state'}, inv rank state → net.act rank state state' → view state' = view state
  resume_inv : ∀ {states all rank state'}, net.Offered inv view states all →
    net.resume rank (states rank) all state' → inv rank state'
  resume_view : ∀ {states all rank other state' state''}, net.Offered inv view states all →
    net.resume rank (states rank) all state' → net.resume other (states other) all state'' → view state' = view state''

/-- Where a rank can be after an all-gather and before the next. -/
inductive Since (before : State) (all : Rank → Payload) (rank : Rank) : Place Rank State Payload → Prop
  | waits : Since before all rank (.gathered before all)
  | runs {state state' : State} (resumed : net.resume rank before all state)
      (acted : Relation.ReflTransGen (net.act rank) state state') : Since before all rank (.running state')

/-- The ranks have been through the same all-gathers, up to those that have yet to go on
from the last one. -/
inductive Synced : (Rank → Place Rank State Payload) → Prop
  | first (states : Rank → State) (holds : ∀ rank, inv rank (states rank))
      (views : ∀ rank other, view (states rank) = view (states other))
      {config : Rank → Place Rank State Payload} (run : ∀ rank, config rank = .running (states rank)) : Synced config
  | later (states : Rank → State) (all : Rank → Payload) (offered : net.Offered inv view states all)
      {config : Rank → Place Rank State Payload} (since : ∀ rank, net.Since (states rank) all rank (config rank)) :
      Synced config

variable {net inv view}

theorem Synced.resume [DecidableEq Rank] (synced : net.Synced inv view config)
    (waits : config rank = .gathered state all) (resumes : net.resume rank state all state') :
    net.Synced inv view (update config rank (.running state')) := by
  cases synced with
  | first states holds views run => cases (run rank).symm.trans waits
  | later states all' offered since =>
    refine .later states all' offered fun other => ?_
    by_cases same : other = rank
    · subst same
      have place := since other
      rw [waits] at place
      rw [update_self]
      cases place with
      | waits => exact .runs resumes .refl
    · rw [update_of_ne same]
      exact since other

namespace Agreeing
variable (agreeing : net.Agreeing inv view)
include agreeing

theorem acts_inv (holds : inv rank state) (acted : Relation.ReflTransGen (net.act rank) state state') :
    inv rank state' ∧ view state' = view state := by
  induction acted with
  | refl => exact ⟨holds, rfl⟩
  | tail _ act ih => exact ⟨agreeing.act_inv ih.1 act, (agreeing.act_view ih.1 act).trans ih.2⟩

theorem running_inv (synced : net.Synced inv view config) (runs : config rank = .running state) : inv rank state := by
  cases synced with
  | first states holds views run =>
    cases (run rank).symm.trans runs
    exact holds rank
  | later states all offered since =>
    have place := since rank
    rw [runs] at place
    cases place with
    | runs resumed acted => exact (agreeing.acts_inv (agreeing.resume_inv offered resumed) acted).1

/-- Ranks that run agree on the view. -/
theorem running_view (synced : net.Synced inv view config) (runs : config rank = .running state)
    (runs' : config other = .running state') : view state = view state' := by
  cases synced with
  | first states holds views run =>
    cases (run rank).symm.trans runs
    cases (run other).symm.trans runs'
    exact views rank other
  | later states all offered since =>
    have place := since rank
    have place' := since other
    rw [runs] at place
    rw [runs'] at place'
    cases place with
    | runs resumed acted =>
      cases place' with
      | runs resumed' acted' =>
        rw [(agreeing.acts_inv (agreeing.resume_inv offered resumed) acted).2,
          (agreeing.acts_inv (agreeing.resume_inv offered resumed') acted').2]
        exact agreeing.resume_view offered resumed resumed'

variable [DecidableEq Rank]

theorem synced_act (synced : net.Synced inv view config) (runs : config rank = .running state)
    (acts : net.act rank state state') : net.Synced inv view (update config rank (.running state')) := by
  have holds := agreeing.running_inv synced runs
  cases synced with
  | first states all views run =>
    cases (run rank).symm.trans runs
    have kept : ∀ other, inv other (update states rank state' other) ∧
        view (update states rank state' other) = view (states other) := by
      intro other
      by_cases same : other = rank
      · subst same
        simpa using ⟨agreeing.act_inv holds acts, agreeing.act_view holds acts⟩
      · simpa [same] using all other
    refine .first (update states rank state') (fun other => (kept other).1) (fun other third => ?_) fun other => ?_
    · rw [(kept other).2, (kept third).2, views other third]
    · by_cases same : other = rank
      · subst same
        simp
      · simpa [same] using run other
  | later states all offered since =>
    refine .later states all offered fun other => ?_
    by_cases same : other = rank
    · subst same
      have place := since other
      rw [runs] at place
      rw [update_self]
      cases place with
      | runs resumed acted => exact .runs resumed (acted.tail acts)
    · rw [update_of_ne same]
      exact since other

theorem synced_step (synced : net.Synced inv view config) (step : net.Step config config') :
    net.Synced inv view config' := by
  cases step with
  | act rank runs acts => exact agreeing.synced_act synced runs acts
  | gather states all offers =>
    refine .later states all ⟨fun rank => ?_, fun rank other => ?_, offers⟩ fun _ => .waits
    · exact agreeing.running_inv synced rfl
    · exact agreeing.running_view synced rfl rfl
  | resume rank waits resumes => exact synced.resume waits resumes

theorem synced_of_reachable (holds : ∀ rank, inv rank (init rank))
    (views : ∀ rank other, view (init rank) = view (init other)) (reachable : net.Reachable init config) :
    net.Synced inv view config := by
  induction reachable with
  | refl => exact .first init holds views fun _ => rfl
  | tail _ step ih => exact agreeing.synced_step ih step

end Agreeing
end Gathering
end NcclCore.Lib
