import Mathlib.Tactic.Common

/-! Singly linked lists in a heap of `next` pointers. A segment is given by the
nodes a walk visits and the pointer it stops at, so a list whose end dangles is
a segment too; writes outside a segment leave it alone. -/
namespace NcclCore.Lib
open Function
variable {α : Type} [DecidableEq α]

/-- Walking from `start` visits exactly `nodes` and then stands at `stop`. -/
def Linked (next : α → Option α) : (start : Option α) → (nodes : List α) → (stop : Option α) → Prop
  | start, [], stop => start = stop
  | start, node :: rest, stop => start = some node ∧ Linked next (next node) rest stop

/-- The first node of a list that is kept by its two ends, and the last. -/
structure Ends (α : Type) where
  head : α
  tail : α

/-- The list kept by `ends` has the given nodes, and `stop` behind the last. -/
def Held (next : α → Option α) (ends : Option (Ends α)) (nodes : List α) (stop : Option α) : Prop :=
  match ends with
  | none => nodes = []
  | some ends => nodes.getLast? = some ends.tail ∧ Linked next (some ends.head) nodes stop

/-- Append a node behind the tail, or start the list with it. -/
def pushBack (next : α → Option α) (ends : Option (Ends α)) (node : α) : (α → Option α) × Option (Ends α) :=
  match ends with
  | none => (next, some ⟨node, node⟩)
  | some ends => (update next ends.tail (some node), some ⟨ends.head, node⟩)

omit [DecidableEq α] in
theorem Linked.congr (same : ∀ node ∈ nodes, next' node = next node)
    (linked : Linked next start nodes stop) : Linked next' start nodes stop := by
  induction nodes generalizing start with
  | nil => exact linked
  | cons node rest ih =>
    obtain ⟨here, later⟩ := linked
    refine ⟨here, ?_⟩
    rw [same node List.mem_cons_self]
    exact ih (fun other member => same other (List.mem_cons_of_mem node member)) later

variable {next : α → Option α}

theorem Linked.update_of_notMem (outside : node ∉ nodes) (linked : Linked next start nodes stop) :
    Linked (update next node target) start nodes stop := by
  refine linked.congr fun other member => update_of_ne ?_ _ _
  rintro rfl
  exact outside member

omit [DecidableEq α] in
/-- A walk that ends is determined by where it starts. -/
theorem Linked.unique (linked : Linked next start nodes none) (linked' : Linked next start nodes' none) :
    nodes = nodes' := by
  induction nodes generalizing start nodes' with
  | nil =>
    cases nodes' with
    | nil => rfl
    | cons => cases linked.symm.trans linked'.1
  | cons node rest ih =>
    cases nodes' with
    | nil => cases linked.1.symm.trans linked'
    | cons node' rest' =>
      obtain rfl : node = node' := Option.some.inj (linked.1.symm.trans linked'.1)
      rw [ih linked.2 linked'.2]

omit [DecidableEq α] in
theorem Linked.append (linked : Linked next start first between)
    (linked' : Linked next between second stop) : Linked next start (first ++ second) stop := by
  induction first generalizing start with
  | nil => cases linked; exact linked'
  | cons node rest ih => exact ⟨linked.1, ih linked.2⟩

omit [DecidableEq α] in
theorem Linked.of_append (linked : Linked next start (first ++ second) stop) :
    ∃ between, Linked next start first between ∧ Linked next between second stop := by
  induction first generalizing start with
  | nil => exact ⟨start, rfl, linked⟩
  | cons node rest ih =>
    obtain ⟨between, early, late⟩ := ih linked.2
    exact ⟨between, ⟨linked.1, early⟩, late⟩

omit [DecidableEq α] in
/-- A walk that has not ended where a segment does goes on behind it. -/
theorem Linked.continues (linked : Linked next start nodes (some node))
    (whole : Linked next start all none) : ∃ more, all = nodes ++ more ∧ more ≠ [] := by
  induction nodes generalizing start all with
  | nil =>
    cases linked
    cases all with
    | nil => cases whole
    | cons first rest => exact ⟨first :: rest, rfl, List.cons_ne_nil _ _⟩
  | cons first nodes ih =>
    cases all with
    | nil => cases linked.1.symm.trans whole
    | cons first' rest =>
      obtain rfl : first = first' := Option.some.inj (linked.1.symm.trans whole.1)
      obtain ⟨more, rfl, nonempty⟩ := ih linked.2 whole.2
      exact ⟨more, rfl, nonempty⟩

omit [DecidableEq α] in
/-- The pointer a walk starts from names the first of its nodes. -/
theorem Linked.start_eq (linked : Linked next start nodes none) : start = nodes.head? := by
  cases nodes with
  | nil => exact linked
  | cons => exact linked.1

/-- Redirecting the last node of a segment moves its end. -/
theorem Linked.redirect (distinct : nodes.Nodup) (last : nodes.getLast? = some tail)
    (linked : Linked next start nodes stop) : Linked (update next tail target) start nodes target := by
  obtain ⟨init, rfl⟩ := List.getLast?_eq_some_iff.mp last
  obtain ⟨between, early, late⟩ := linked.of_append
  have outside : tail ∉ init := by
    intro member
    exact (List.nodup_append.mp distinct).2.2 tail member tail (List.mem_singleton_self tail) rfl
  refine (early.update_of_notMem outside).append ⟨late.1, ?_⟩
  simp [Linked]

omit [DecidableEq α] in
/-- A nonempty segment stops where its last node points to. -/
theorem Linked.stop_eq
    (last : nodes.getLast? = some tail) (linked : Linked next start nodes stop) : stop = next tail := by
  obtain ⟨init, rfl⟩ := List.getLast?_eq_some_iff.mp last
  obtain ⟨between, -, late⟩ := linked.of_append
  exact late.2.symm

theorem Held.pushBack (distinct : nodes.Nodup) (fresh : node ∉ nodes) (held : Held next ends nodes stop) :
    Held (pushBack next ends node).1 (pushBack next ends node).2 (nodes ++ [node]) (next node) := by
  cases ends with
  | none =>
    obtain rfl : nodes = [] := held
    exact ⟨rfl, rfl, rfl⟩
  | some ends =>
    obtain ⟨last, linked⟩ := held
    have other : node ≠ ends.tail := by
      rintro rfl
      exact fresh (List.mem_of_getLast? last)
    refine ⟨by simp, (linked.redirect distinct last).append ⟨rfl, ?_⟩⟩
    simp [Linked, update_of_ne other]

theorem pushBack_of_notMem (held : Held next ends nodes stop) (node : α) (outside : other ∉ nodes) :
    (pushBack next ends node).1 other = next other := by
  cases ends with
  | none => rfl
  | some =>
    refine update_of_ne ?_ _ _
    rintro rfl
    exact outside (List.mem_of_getLast? held.1)

omit [DecidableEq α] in
theorem Held.congr (same : ∀ node ∈ nodes, next' node = next node)
    (held : Held next ends nodes stop) : Held next' ends nodes stop := by
  cases ends with
  | none => exact held
  | some => exact ⟨held.1, held.2.congr same⟩

end NcclCore.Lib
