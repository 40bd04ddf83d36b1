import Mathlib.Data.List.Chain
import Mathlib.Order.Lattice

/-! Greedy grouping of a sequence: every element joins the last group if that
group takes it, and starts a group of its own otherwise. -/
namespace NcclCore.Lib
open List
variable {α : Type} {joins : List α → α → Prop}

/-- The groups a greedy run may have built. -/
inductive Greedy (joins : List α → α → Prop) : List (List α) → Prop where
  | nil : Greedy joins []
  | start {groups : List (List α)} {item : α} (before : Greedy joins groups)
      (refused : ∀ group, groups.getLast? = some group → ¬ joins group item) : Greedy joins (groups ++ [[item]])
  | grow {groups : List (List α)} {group : List α} {item : α} (before : Greedy joins (groups ++ [group]))
      (taken : joins group item) : Greedy joins (groups ++ [group ++ [item]])

variable {groups : List (List α)} (built : Greedy joins groups)
include built

/-- What holds of single elements and is kept by joining holds of every group. -/
theorem Greedy.all {holds : List α → Prop} (single : ∀ item, holds [item])
    (joined : ∀ group item, holds group → joins group item → holds (group ++ [item])) :
    ∀ group ∈ groups, holds group := by
  induction built with
  | nil => intro group member; cases member
  | start _ _ ih =>
    intro group member
    rcases mem_append.mp member with early | new
    · exact ih group early
    · rw [mem_singleton.mp new]
      exact single _
  | grow _ taken ih =>
    intro group member
    rcases mem_append.mp member with early | new
    · exact ih group (mem_append_left _ early)
    · rw [mem_singleton.mp new]
      exact joined _ _ (ih _ (mem_append_right _ (mem_singleton_self _))) taken

theorem Greedy.ne_nil : ∀ group ∈ groups, group ≠ [] :=
  built.all (fun _ => cons_ne_nil _ _) fun _ _ _ _ => by simp

/-- A group that is followed by another refused the first element of that one. -/
theorem Greedy.refused :
    groups.IsChain fun group next => ∀ item, next.head? = some item → ¬ joins group item := by
  induction built with
  | nil => exact .nil
  | start before refused ih =>
    refine List.IsChain.append ih (.singleton _) fun group last next first item head => ?_
    obtain rfl : next = [_] := by simpa using first.symm
    obtain rfl : item = _ := by simpa using head.symm
    exact refused group last
  | @grow groups group item before taken ih =>
    obtain ⟨early, -, across⟩ := isChain_append.mp ih
    refine List.IsChain.append early (.singleton _) fun previous last next first other head => ?_
    obtain rfl : next = group ++ [item] := by simpa using first.symm
    have nonempty : group ≠ [] := before.ne_nil group (by simp)
    refine across previous last group (by simp) other ?_
    rw [head?_append_of_ne_nil _ nonempty] at head
    exact head

/-- A map that keeps the decisions for the elements at hand maps the groups. -/
theorem Greedy.map {joins' : List β → β → Prop} {f : α → β} {good : α → Prop}
    (same : ∀ group item, (∀ member ∈ group, good member) → good item →
      (joins group item ↔ joins' (group.map f) (f item)))
    (all : ∀ item ∈ groups.flatten, good item) :
    Greedy joins' (groups.map (map f)) := by
  induction built with
  | nil => exact .nil
  | @start groups item before refused ih =>
    have early : ∀ member ∈ groups.flatten, good member := fun member inside => all member (by simp [inside])
    rw [map_append]
    refine .start (ih early) fun group' last => ?_
    rw [getLast?_map, Option.map_eq_some_iff] at last
    obtain ⟨group, last, rfl⟩ := last
    have members : ∀ member ∈ group, good member := fun member inside =>
      early member (mem_flatten.mpr ⟨group, mem_of_getLast? last, inside⟩)
    exact mt (same group item members (all item (by simp))).mpr (refused group last)
  | @grow groups group item before taken ih =>
    have early : ∀ member ∈ (groups ++ [group]).flatten, good member := by
      intro member inside
      refine all member ?_
      simp only [flatten_append, flatten_singleton, mem_append] at inside ⊢
      exact inside.imp_right .inl
    have built' := ih early
    rw [map_append, map_singleton] at built' ⊢
    rw [map_append]
    exact built'.grow ((same group item (fun member inside => early member (by simp [inside]))
      (all item (by simp))).mp taken)

/-- If a group takes every later element with its key, the keys of the groups
increase. -/
theorem Greedy.keys_lt [LinearOrder Key] {key : α → Key} {less : α → α → Prop} (sorted : groups.flatten.Pairwise less)
    (monotone : ∀ x y, less x y → key x ≤ key y) (alike : ∀ group ∈ groups, ∀ x ∈ group, ∀ y ∈ group, key x = key y)
    (taken : ∀ group ∈ groups, ∀ item, (∀ x ∈ group, less x item ∧ key x = key item) → joins group item) :
    groups.Pairwise fun group later => ∀ x ∈ group, ∀ y ∈ later, key x < key y := by
  have across := (pairwise_flatten.mp sorted).2
  let below (group later : List α) : Prop := later ≠ [] ∧ ∀ x ∈ group, ∀ y ∈ later, key x < key y
  have transitive : ∀ {a b c : List α}, below a b → below b c → below a c := by
    intro a b c ⟨nonempty, first⟩ ⟨nonempty', second⟩
    obtain ⟨middle, inside⟩ := exists_mem_of_ne_nil _ nonempty
    exact ⟨nonempty', fun x inA y inC => lt_trans (first x inA middle inside) (second middle inside y inC)⟩
  have trans : Trans below below below := ⟨transitive⟩
  suffices chain : groups.IsChain below from
    (isChain_iff_pairwise.mp chain).imp fun {group later} both => both.2
  rw [isChain_iff_getElem]
  intro i inside
  have here : groups[i] ∈ groups := getElem_mem _
  have next : groups[i + 1] ∈ groups := getElem_mem _
  refine ⟨built.ne_nil _ next, fun x inX y inY => ?_⟩
  have ordered := pairwise_iff_getElem.mp across i (i + 1) (by omega) inside (Nat.lt_succ_self i)
  refine lt_of_le_of_ne (monotone x y (ordered x inX y inY)) fun equal => ?_
  obtain ⟨head, tail, shape⟩ := exists_cons_of_ne_nil (built.ne_nil _ next)
  have inHead : head ∈ groups[i + 1] := by simp [shape]
  refine isChain_iff_getElem.mp built.refused i inside head (by simp [shape]) (taken _ here head fun other inside => ?_)
  exact ⟨ordered other inside head inHead,
    ((alike _ here other inside x inX).trans equal).trans (alike _ next y inY head inHead)⟩

end NcclCore.Lib
