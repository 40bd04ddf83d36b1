import Mathlib.Algebra.Order.BigOperators.Group.Finset
import Mathlib.Data.Fintype.EquivFin
import Mathlib.Data.Fintype.Lattice

/-! Parties that run programs of the same length and exchange data through
channels of numbered slots. A slot that has been posted never changes; an
operation waits until the slot it reads has been posted and until the slot it
writes is not too far ahead of the receiver. If all parties can take their
operations together, one after the other, then they can take them in any order:
no party gets stuck, and every party ends in the same state. -/
namespace NcclCore.Lib
open Function

/-- The end of a channel that an operation uses: the channel, how far ahead of
the current slot, and whether it moves on to the next slot. -/
structure Port where
  dim : Nat
  ahead : Nat
  post : Bool

/-- How many slots a port moves on. -/
def Port.posts (port : Option Port) (dim : Nat) : Nat :=
  if ∃ p ∈ port, p.dim = dim ∧ p.post = true then 1 else 0

/-- Parties, each connected to a source and to a destination for every channel.
An operation fails if what it was given is not what it needs. -/
structure Network (Party State Op Slot : Type) where
  source : Party → Nat → Party
  dest : Party → Nat → Party
  capacity : Nat
  recv : Op → Option Port
  send : Op → Option Port
  sent : State → Nat → Nat
  rcvd : State → Nat → Nat
  slot : State → Nat → Nat → Slot
  exec : Party → Op → State → Option Slot → Option State
  sent_exec : ∀ {party op state received next}, exec party op state received = some next →
    ∀ dim, sent next dim = sent state dim + Port.posts (send op) dim
  rcvd_exec : ∀ {party op state received next}, exec party op state received = some next →
    ∀ dim, rcvd next dim = rcvd state dim + Port.posts (recv op) dim
  slot_exec : ∀ {party op state received next}, exec party op state received = some next →
    ∀ dim k, k < sent state dim → slot next dim k = slot state dim k

namespace Network
variable {Party State Op Slot : Type} (net : Network Party State Op Slot)

section
variable (states : Party → State)

/-- The slot to be read has been posted, and there is room for the slot to be
written. -/
structure Ready (party : Party) (op : Op) : Prop where
  recv : ∀ port ∈ net.recv op, net.rcvd (states party) port.dim + port.ahead <
    net.sent (states (net.source party port.dim)) port.dim
  send : ∀ port ∈ net.send op, net.sent (states party) port.dim + port.ahead <
    net.rcvd (states (net.dest party port.dim)) port.dim + net.capacity

/-- What an operation is given. -/
def received (party : Party) (op : Op) : Option Slot :=
  (net.recv op).map fun port =>
    net.slot (states (net.source party port.dim)) port.dim (net.rcvd (states party) port.dim + port.ahead)

/-- What comes of an operation. -/
def result (party : Party) (op : Op) : Option State :=
  net.exec party op (states party) (net.received states party op)

/-- All parties take their next operation together. -/
def Together (ops : Party → Op) (next : Party → State) : Prop :=
  ∀ party, net.Ready states party (ops party) ∧ net.result states party (ops party) = some (next party)

end

/-- All parties take their operations together, one after the other. -/
inductive Runs : (Party → State) → List (Party → Op) → (Party → State) → Prop where
  | nil (states : Party → State) : Runs states [] states
  | cons {states next final : Party → State} {ops : Party → Op} {rest : List (Party → Op)}
      (step : net.Together states ops next) (run : Runs next rest final) : Runs states (ops :: rest) final

variable {net}

theorem Runs.append (first : net.Runs states ops next)
    (second : net.Runs next rest final) : net.Runs states (ops ++ rest) final := by
  induction first with
  | nil => exact second
  | cons step _ ih => exact .cons step (ih second)

theorem Runs.concat (first : net.Runs states ops next)
    (step : net.Together next last final) : net.Runs states (ops ++ [last]) final :=
  first.append (.cons step (.nil final))

variable {columns : List (Party → Op)}

/-- The states a run goes through. -/
theorem Runs.exists_trace (run : net.Runs states columns final) :
    ∃ trace : Nat → Party → State, trace 0 = states ∧ trace columns.length = final ∧
      ∀ i ops, columns[i]? = some ops → net.Together (trace i) ops (trace (i + 1)) := by
  induction run with
  | nil states => exact ⟨fun _ => states, rfl, rfl, fun i ops found => by simp at found⟩
  | @cons states next final ops rest step _ ih =>
    obtain ⟨trace, start, last, steps⟩ := ih
    refine ⟨fun i => Nat.casesOn i states trace, rfl, last, fun i other found => ?_⟩
    cases i with
    | zero =>
      obtain rfl : ops = other := by simpa using found
      rw [← start] at step
      exact step
    | succ i => exact steps i other (by simpa using found)

/-! ### In any order -/

/-- How far each party is, and its state. -/
structure Config (Party State : Type) where
  pc : Party → Nat
  states : Party → State

def Config.advance [DecidableEq Party] (config : Config Party State) (party : Party) (next : State) :
    Config Party State :=
  ⟨update config.pc party (config.pc party + 1), update config.states party next⟩

theorem Config.advance_cases [DecidableEq Party] (config : Config Party State) (party : Party) (next : State)
    (other : Party) :
    (other = party ∧ (config.advance party next).pc other = config.pc party + 1 ∧
        (config.advance party next).states other = next) ∨
      ((config.advance party next).pc other = config.pc other ∧
        (config.advance party next).states other = config.states other) := by
  by_cases same : other = party
  · subst same
    exact .inl ⟨rfl, update_self .., update_self ..⟩
  · exact .inr ⟨update_of_ne same .., update_of_ne same ..⟩

section
variable (net) (program : Party → List Op) [DecidableEq Party]

/-- One party takes its next operation. -/
inductive Step : Config Party State → Config Party State → Prop where
  | run {config : Config Party State} {party : Party} {op : Op} {next : State}
      (found : (program party)[config.pc party]? = some op) (ready : net.Ready config.states party op)
      (done : net.result config.states party op = some next) :
      Step config (config.advance party next)

def Reachable (states : Party → State) (config : Config Party State) : Prop :=
  Relation.ReflTransGen (net.Step program) ⟨fun _ => 0, states⟩ config

/-- An operation that need not wait, but fails. -/
def Faulty (config : Config Party State) : Prop :=
  ∃ party op, (program party)[config.pc party]? = some op ∧ net.Ready config.states party op ∧
    net.result config.states party op = none

end

/-- The states of a run in which the parties take their operations together. -/
structure Trace (net : Network Party State Op Slot) (columns : List (Party → Op))
    (trace : Nat → Party → State) : Prop where
  together : ∀ i ops, columns[i]? = some ops → net.Together (trace i) ops (trace (i + 1))

variable {columns : List (Party → Op)} {trace : Nat → Party → State}

/-- Slots are only added, and those that were posted stay as they are. -/
theorem Trace.stable (traced : Trace net columns trace) (party : Party) (dim : Nat) (later : i ≤ j)
    (inside : j ≤ columns.length) :
    net.sent (trace i party) dim ≤ net.sent (trace j party) dim ∧
      net.rcvd (trace i party) dim ≤ net.rcvd (trace j party) dim ∧
      ∀ k < net.sent (trace i party) dim, net.slot (trace j party) dim k = net.slot (trace i party) dim k := by
  induction j, later using Nat.le_induction with
  | base => exact ⟨le_rfl, le_rfl, fun _ _ => rfl⟩
  | succ j later ih =>
    obtain ⟨sends, recvs, slots⟩ := ih (Nat.le_of_succ_le inside)
    have taken := (traced.together j _ (List.getElem?_eq_getElem inside) party).2
    have posts := net.sent_exec taken dim
    have reads := net.rcvd_exec taken dim
    refine ⟨by omega, by omega, fun k old => ?_⟩
    rw [net.slot_exec taken dim k (old.trans_le sends), slots k old]

/-- Every party is where the run that is taken together had it. -/
structure Follows (columns : List (Party → Op)) (trace : Nat → Party → State) (config : Config Party State) : Prop where
  inside : ∀ party, config.pc party ≤ columns.length
  state : ∀ party, config.states party = trace (config.pc party) party

/-- What a party reads does not depend on how far the others are. -/
theorem Follows.result_eq (traced : Trace net columns trace) (follows : Follows columns trace config)
    (found : columns[config.pc party]? = some ops) (ready : net.Ready config.states party (ops party)) :
    net.result config.states party (ops party) = some (trace (config.pc party + 1) party) := by
  obtain ⟨readyThen, done⟩ := traced.together _ _ found party
  have same : net.received config.states party (ops party) =
      net.received (trace (config.pc party)) party (ops party) := by
    rw [received, received]
    cases port : net.recv (ops party) with
    | none => rfl
    | some port' =>
      have now := ready.recv port' port
      have before := readyThen.recv port' port
      rw [follows.state, follows.state] at now
      simp only [Option.map_some, follows.state party, follows.state (net.source party port'.dim)]
      rcases Nat.le_total (config.pc party) (config.pc (net.source party port'.dim)) with ahead | behind
      · rw [(traced.stable _ port'.dim ahead (follows.inside _)).2.2 _ before]
      · rw [(traced.stable _ port'.dim behind (follows.inside _)).2.2 _ now]
  rw [result, same, follows.state]
  exact done

variable [DecidableEq Party] {program : Party → List Op} (programs : ∀ party, program party = columns.map (· party))
include programs

section
variable (traced : Trace net columns trace)
include traced

theorem Follows.step (follows : Follows columns trace config) (step : net.Step program config next) :
    Follows columns trace next := by
  cases step with
  | @run party op state found ready done =>
    rw [programs, List.getElem?_map, Option.map_eq_some_iff] at found
    obtain ⟨ops, found, rfl⟩ := found
    have final := follows.result_eq traced found ready
    rw [done] at final
    obtain rfl := Option.some.inj final
    have bound := (List.getElem?_eq_some_iff.mp found).1
    constructor
    · intro other
      rcases config.advance_cases party (trace (config.pc party + 1) party) other with ⟨-, pc, -⟩ | ⟨pc, -⟩
      · rw [pc]
        exact bound
      · rw [pc]
        exact follows.inside other
    · intro other
      rcases config.advance_cases party (trace (config.pc party + 1) party) other with ⟨rfl, pc, state⟩ | ⟨pc, state⟩
      · rw [pc, state]
      · rw [pc, state]
        exact follows.state other

theorem Reachable.follows (reached : net.Reachable program (trace 0) config) : Follows columns trace config := by
  induction reached with
  | refl => exact ⟨fun _ => Nat.zero_le _, fun _ => rfl⟩
  | tail _ step ih => exact ih.step programs traced step

/-- The party that is furthest behind need not wait. -/
theorem Follows.exists_step [Finite Party] (follows : Follows columns trace config)
    (unfinished : config.pc party < columns.length) : ∃ next, net.Step program config next := by
  have nonempty : Nonempty Party := ⟨party⟩
  obtain ⟨slowest, least⟩ := Finite.exists_min config.pc
  obtain ⟨ops, found⟩ : ∃ ops, columns[config.pc slowest]? = some ops :=
    ⟨_, List.getElem?_eq_getElem (lt_of_le_of_lt (least party) unfinished)⟩
  obtain ⟨readyThen, -⟩ := traced.together _ _ found slowest
  have ready : net.Ready config.states slowest (ops slowest) := by
    constructor
    · intro port isPort
      have before := readyThen.recv port isPort
      have more := (traced.stable (net.source slowest port.dim) port.dim (least (net.source slowest port.dim))
        (follows.inside _)).1
      rw [follows.state, follows.state]
      omega
    · intro port isPort
      have before := readyThen.send port isPort
      have more := (traced.stable (net.dest slowest port.dim) port.dim (least (net.dest slowest port.dim))
        (follows.inside _)).2.1
      rw [follows.state, follows.state]
      omega
  refine ⟨_, .run ?_ ready (follows.result_eq traced found ready)⟩
  rw [programs, List.getElem?_map, found, Option.map_some]

theorem Follows.exists_finished [Finite Party] (follows : Follows columns trace config) :
    ∃ last, Relation.ReflTransGen (net.Step program) config last ∧ ∀ party, columns.length ≤ last.pc party := by
  have := Fintype.ofFinite Party
  -- every step brings one party closer to the end of its program
  induction left : ∑ party, (columns.length - config.pc party) using Nat.strong_induction_on generalizing config with
  | _ left' ih =>
    by_cases finished : ∀ party, columns.length ≤ config.pc party
    · exact ⟨config, .refl, finished⟩
    · obtain ⟨party, unfinished⟩ := not_forall.mp finished
      obtain ⟨next, step⟩ := follows.exists_step programs traced (not_le.mp unfinished)
      have closer : ∑ party, (columns.length - next.pc party) < left' := by
        rw [← left]
        cases step with
        | @run moved op state found ready done =>
          have bound := (List.getElem?_eq_some_iff.mp found).1
          rw [programs, List.length_map] at bound
          apply Finset.sum_lt_sum
          · intro other _
            rcases config.advance_cases moved state other with ⟨rfl, pc, -⟩ | ⟨pc, -⟩ <;> omega
          · refine ⟨moved, Finset.mem_univ _, ?_⟩
            have pc : (config.advance moved state).pc moved = config.pc moved + 1 := update_self ..
            omega
      obtain ⟨last, steps, finished⟩ := ih _ closer (follows.step programs traced step) rfl
      exact ⟨last, .head step steps, finished⟩

end

/-- A run that can be taken together can be taken in any order. -/
theorem Runs.any_order (run : net.Runs states columns final)
    (reached : net.Reachable program states config) :
    ¬ net.Faulty program config ∧ ((∀ party, columns.length ≤ config.pc party) → config.states = final) := by
  obtain ⟨trace, rfl, rfl, together⟩ := run.exists_trace
  have traced : Trace net columns trace := ⟨together⟩
  have follows := Reachable.follows programs traced reached
  constructor
  · rintro ⟨party, op, found, ready, failed⟩
    rw [programs, List.getElem?_map, Option.map_eq_some_iff] at found
    obtain ⟨ops, found, rfl⟩ := found
    rw [follows.result_eq traced found ready] at failed
    cases failed
  · intro finished
    funext party
    rw [follows.state, le_antisymm (follows.inside party) (finished party)]

/-- And every such run can be completed. -/
theorem Runs.completes [Finite Party] (run : net.Runs states columns final)
    (reached : net.Reachable program states config) :
    ∃ last, Relation.ReflTransGen (net.Step program) config last ∧ ∀ party, columns.length ≤ last.pc party := by
  obtain ⟨trace, rfl, rfl, together⟩ := run.exists_trace
  have traced : Trace net columns trace := ⟨together⟩
  exact (Reachable.follows programs traced reached).exists_finished programs traced

end Network
end NcclCore.Lib
