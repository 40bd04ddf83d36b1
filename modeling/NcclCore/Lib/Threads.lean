import NcclCore.Lib.LinkedList

/-! Several linked lists threaded through one heap of `next` pointers, each kept by its
head at a place of its own. No node is in two lists. A list at a dangling place may end in
any pointer; the others end in none. Whatever a step does to two of the lists, it is
enough to know these two and to leave the nodes of the others alone. -/
namespace NcclCore.Lib
open Function List
variable {α ι : Type} {next next' : α → Option α}

/-- The list kept by `head`. -/
def Chain (next : α → Option α) (dangling : Prop) (head : Option α) (nodes : List α) : Prop :=
  ∃ stop, Linked next head nodes stop ∧ (stop = none ∨ dangling ∧ nodes ≠ [])

variable {dangling : Prop} {head : Option α} {nodes : List α}

theorem Chain.of_linked (linked : Linked next head nodes none) : Chain next dangling head nodes :=
  ⟨none, linked, .inl rfl⟩

theorem Chain.linked (chain : Chain next False head nodes) : Linked next head nodes none := by
  obtain ⟨stop, linked, rfl | ⟨impossible, -⟩⟩ := chain
  · exact linked
  · exact impossible.elim

theorem Chain.head_eq (chain : Chain next dangling head nodes) : head = nodes.head? := by
  obtain ⟨stop, linked, ends⟩ := chain
  cases nodes with
  | nil =>
    rcases ends with rfl | ⟨-, nonempty⟩
    · exact linked
    · exact absurd rfl nonempty
  | cons => exact linked.1

theorem Chain.eq_nil (chain : Chain next dangling none nodes) : nodes = [] :=
  head?_eq_none_iff.mp chain.head_eq.symm

theorem Chain.exists_cons (chain : Chain next dangling (some first) nodes) : ∃ rest, nodes = first :: rest := by
  cases nodes with
  | nil => cases chain.head_eq
  | cons node rest =>
    obtain rfl : first = node := Option.some.inj chain.head_eq
    exact ⟨rest, rfl⟩

theorem Chain.congr (same : ∀ node ∈ nodes, next' node = next node) (chain : Chain next dangling head nodes) :
    Chain next' dangling head nodes := by
  obtain ⟨stop, linked, ends⟩ := chain
  exact ⟨stop, linked.congr same, ends⟩

/-- A list kept by its head and its last node gets a list behind it. -/
def linkBehind [DecidableEq α] (next : α → Option α) (head tail first : Option α) : (α → Option α) × Option α :=
  match head, tail with
  | none, _ => (next, first)
  | some head, some last => (update next last first, some head)
  | some head, none => (next, some head)

section
variable [DecidableEq α] {head tail first : Option α}
variable (linked : Linked next head nodes none)
include linked

theorem linkBehind_of_getLast? (ended : nodes.getLast? = some last) :
    linkBehind next head (some last) first = (update next last first, head) := by
  cases nodes with
  | nil => cases ended
  | cons => rw [linked.1, linkBehind]

theorem linkBehind_linked (linked' : Linked next first added none)
    (ended : ∀ last, nodes.getLast? = some last → tail = some last) (distinct : nodes.Nodup)
    (apart : ∀ node ∈ nodes, node ∉ added) :
    Linked (linkBehind next head tail first).1 (linkBehind next head tail first).2 (nodes ++ added) none := by
  cases isLast : nodes.getLast? with
  | none =>
    obtain rfl := getLast?_eq_none_iff.mp isLast
    obtain rfl : head = none := linked
    exact linked'
  | some last =>
    rw [ended last isLast, linkBehind_of_getLast? linked isLast]
    exact (linked.redirect distinct isLast).append (linked'.update_of_notMem (apart last (mem_of_getLast? isLast)))

theorem linkBehind_of_notMem (ended : ∀ last, nodes.getLast? = some last → tail = some last) (outside : node ∉ nodes) :
    (linkBehind next head tail first).1 node = next node := by
  cases isLast : nodes.getLast? with
  | none =>
    obtain rfl := getLast?_eq_none_iff.mp isLast
    obtain rfl : head = none := linked
    rfl
  | some last =>
    rw [ended last isLast, linkBehind_of_getLast? linked isLast]
    refine update_of_ne ?_ ..
    rintro rfl
    exact outside (mem_of_getLast? isLast)

end

/-- The lists at all places. -/
structure Threaded (next : α → Option α) (dangling : ι → Prop) (head : ι → Option α) (nodes : ι → List α) : Prop where
  distinct : ∀ place, (nodes place).Nodup
  apart : ∀ {node place place'}, node ∈ nodes place → node ∈ nodes place' → place = place'
  chain : ∀ place, Chain next (dangling place) (head place) (nodes place)

variable [DecidableEq ι] {dangling : ι → Prop} {head head' : ι → Option α} {nodes : ι → List α} {source target : ι}
  {moving rest more : List α}

/-- The lists after two of them have changed. -/
def relist (nodes : ι → List α) (source target : ι) (rest more : List α) : ι → List α :=
  update (update nodes source rest) target more

@[simp] theorem relist_target : relist nodes source target rest more target = more :=
  update_self ..

theorem relist_source (ne : source ≠ target) : relist nodes source target rest more source = rest := by
  rw [relist, update_of_ne ne, update_self]

theorem relist_of_ne (notSource : place ≠ source) (notTarget : place ≠ target) :
    relist nodes source target rest more place = nodes place := by
  rw [relist, update_of_ne notTarget, update_of_ne notSource]

section
variable (threaded : Threaded next dangling head nodes) (ne : source ≠ target)
  (leaves : (nodes source).Perm (moving ++ rest)) (arrives : more.Perm (moving ++ nodes target))
include threaded ne leaves arrives

/-- The nodes that move are at the target afterwards, all others where they were. -/
theorem Threaded.mem_relist_iff (place : ι) (node : α) :
    node ∈ relist nodes source target rest more place ↔
      node ∈ moving ∧ place = target ∨ node ∉ moving ∧ node ∈ nodes place := by
  have fromSource : ∀ {node}, node ∈ moving → node ∈ nodes source :=
    fun member => leaves.mem_iff.mpr (mem_append_left _ member)
  have stays : ∀ {node place}, node ∈ nodes place → place ≠ source → node ∉ moving :=
    fun member other moved => other (threaded.apart member (fromSource moved))
  by_cases atTarget : place = target
  · subst atTarget
    rw [relist_target, arrives.mem_iff, mem_append]
    tauto
  · by_cases atSource : place = source
    · subst atSource
      have split := nodup_append.mp (leaves.nodup_iff.mp (threaded.distinct place))
      rw [relist_source ne, leaves.mem_iff, mem_append]
      tauto
    · rw [relist_of_ne atSource atTarget]
      tauto

/-- No node is lost and none is new. -/
theorem Threaded.exists_mem_relist (node : α) :
    (∃ place, node ∈ relist nodes source target rest more place) ↔ ∃ place, node ∈ nodes place := by
  simp only [threaded.mem_relist_iff ne leaves arrives]
  constructor
  · rintro ⟨place, ⟨moved, -⟩ | ⟨-, member⟩⟩
    · exact ⟨source, leaves.mem_iff.mpr (mem_append_left _ moved)⟩
    · exact ⟨place, member⟩
  · rintro ⟨place, member⟩
    by_cases moved : node ∈ moving
    · exact ⟨target, .inl ⟨moved, rfl⟩⟩
    · exact ⟨place, .inr ⟨moved, member⟩⟩

/-- Nodes move from one list to another. The two new lists are chains, and the heap has
changed at nodes of these two only. -/
theorem Threaded.move (left : Chain next' (dangling source) (head' source) rest)
    (arrived : Chain next' (dangling target) (head' target) more)
    (sameHead : ∀ place, place ≠ source → place ≠ target → head' place = head place)
    (sameNext : ∀ node, node ∉ nodes source → node ∉ nodes target → next' node = next node) :
    Threaded next' dangling head' (relist nodes source target rest more) where
  distinct place := by
    by_cases atTarget : place = target
    · subst atTarget
      rw [relist_target, arrives.nodup_iff, nodup_append]
      refine ⟨(nodup_append.mp (leaves.nodup_iff.mp (threaded.distinct source))).1, threaded.distinct place, ?_⟩
      rintro node moved other stayed rfl
      exact ne (threaded.apart (leaves.mem_iff.mpr (mem_append_left _ moved)) stayed)
    · by_cases atSource : place = source
      · subst atSource
        rw [relist_source ne]
        exact (nodup_append.mp (leaves.nodup_iff.mp (threaded.distinct place))).2.1
      · rw [relist_of_ne atSource atTarget]
        exact threaded.distinct place
  apart := by
    intro node place place' member member'
    rw [threaded.mem_relist_iff ne leaves arrives] at member member'
    rcases member with ⟨moved, rfl⟩ | ⟨stays, member⟩
    · rcases member' with ⟨-, rfl⟩ | ⟨stays, -⟩
      · rfl
      · exact absurd moved stays
    · rcases member' with ⟨moved, -⟩ | ⟨-, member'⟩
      · exact absurd moved stays
      · exact threaded.apart member member'
  chain place := by
    by_cases atTarget : place = target
    · subst atTarget
      rwa [relist_target]
    · by_cases atSource : place = source
      · subst atSource
        rwa [relist_source ne]
      · rw [relist_of_ne atSource atTarget, sameHead place atSource atTarget]
        refine (threaded.chain place).congr fun node member => sameNext node ?_ ?_
        · exact fun other => atSource (threaded.apart member other)
        · exact fun other => atTarget (threaded.apart member other)

end

/-- The end of a dangling list is redirected. -/
theorem Threaded.redirect [DecidableEq α] (threaded : Threaded next dangling head nodes) (dangles : dangling place)
    (ends : (nodes place).getLast? = some last) : Threaded (update next last stop) dangling head nodes where
  distinct := threaded.distinct
  apart := threaded.apart
  chain other := by
    have member := mem_of_getLast? ends
    by_cases here : other = place
    · subst here
      obtain ⟨old, linked, -⟩ := threaded.chain other
      exact ⟨stop, linked.redirect (threaded.distinct other) ends, .inr ⟨dangles, ne_nil_of_mem member⟩⟩
    · refine (threaded.chain other).congr fun node inside => update_of_ne ?_ _ _
      rintro rfl
      exact here (threaded.apart inside member)

end NcclCore.Lib
