import Mathlib.Data.Multiset.Bind

/-! Copies between the cells of a memory. A relation says which cell is to be
copied into which; when it is a function and overwrites no cell that it reads,
the copies may run in any order. -/
namespace NcclCore.Lib.Moves
open Function
variable {Cell Value : Type*}

/-- The copy of one cell into another. -/
structure Move (Cell : Type*) where
  src : Cell
  dst : Cell

variable [DecidableEq Cell]

section
variable (memory : Cell → Value)

def Move.apply (move : Move Cell) : Cell → Value :=
  update memory move.dst (memory move.src)

/-- The memory after a list of copies. -/
def run (moves : List (Move Cell)) : Cell → Value := moves.foldl Move.apply memory

theorem run_cons (move : Move Cell) (rest : List (Move Cell)) :
    run memory (move :: rest) = run (move.apply memory) rest := rfl

end

theorem run_of_not_written (untouched : ∀ move ∈ moves, move.dst ≠ cell) (memory : Cell → Value) :
    run memory moves cell = memory cell := by
  induction moves generalizing memory with
  | nil => rfl
  | cons move rest ih =>
    rw [run_cons, ih (fun other member => untouched other (.tail _ member)), Move.apply,
      update_of_ne (untouched move (.head _)).symm]

omit [DecidableEq Cell] in
/-- `wanted dst src` says that `dst` is to receive what `src` holds. A cell that is
both read and written receives its own content. -/
structure Consistent (wanted : Cell → Cell → Prop) : Prop where
  functional : ∀ {dst src src'}, wanted dst src → wanted dst src' → src = src'
  stable : ∀ {dst src dst'}, wanted dst src → wanted dst' dst → src = dst

theorem Consistent.apply_source (consistent : Consistent wanted) {move : Move Cell} (fits : wanted move.dst move.src)
    {dst src : Cell} (reads : wanted dst src) (memory : Cell → Value) : move.apply memory src = memory src := by
  by_cases same : move.dst = src
  · subst same
    rw [Move.apply, update_self, consistent.stable fits reads]
  · exact update_of_ne (Ne.symm same) _ _

theorem Consistent.run_written (consistent : Consistent wanted) (fits : ∀ move ∈ moves, wanted move.dst move.src)
    (memory : Cell → Value) (member : move ∈ moves) : run memory moves move.dst = memory move.src := by
  induction moves generalizing memory move with
  | nil => cases member
  | cons first rest ih =>
    have fitsRest : ∀ other ∈ rest, wanted other.dst other.src := fun other inRest => fits other (.tail _ inRest)
    rw [run_cons]
    by_cases again : ∃ other ∈ rest, other.dst = move.dst
    · -- the last copy into the cell counts, and it reads the same cell
      obtain ⟨other, inRest, same⟩ := again
      have reads : wanted move.dst other.src := same ▸ fitsRest other inRest
      rw [← same, ih fitsRest _ inRest, consistent.apply_source (fits first (.head _)) (fitsRest other inRest),
        consistent.functional reads (fits move member)]
    · have isFirst : move = first := by
        rcases List.mem_cons.mp member with same | inRest
        · exact same
        · exact absurd ⟨move, inRest, rfl⟩ again
      rw [run_of_not_written (fun other inRest same => again ⟨other, inRest, same⟩), isFirst, Move.apply, update_self]

/-- Copies that do what is wanted, and all of it but what is in place already,
bring every cell where it is wanted. -/
theorem Consistent.run_delivers (consistent : Consistent wanted) (fits : ∀ move ∈ moves, wanted move.dst move.src)
    (complete : ∀ {dst src}, wanted dst src → ⟨src, dst⟩ ∈ moves ∨ src = dst) (memory : Cell → Value)
    (wants : wanted dst src) : run memory moves dst = memory src := by
  rcases complete wants with member | same
  · exact consistent.run_written fits memory member
  subst same
  by_cases written : ∃ move ∈ moves, move.dst = src
  · obtain ⟨move, member, same⟩ := written
    have reads : wanted src move.src := same ▸ fits move member
    rw [← same, consistent.run_written fits memory member, consistent.functional reads wants, same]
  · exact run_of_not_written (fun move member same => written ⟨move, member, same⟩) memory

/-- Two nested loops may change places up to the order of what they list. -/
theorem flatMap_comm_perm (rows : List α) (columns : List β) (f : α → β → List γ) :
    (rows.flatMap fun a => columns.flatMap (f a)).Perm (columns.flatMap fun b => rows.flatMap fun a => f a b) := by
  have swapped := Multiset.bind_bind (rows : Multiset α) (columns : Multiset β) (f := fun a b => (f a b : Multiset γ))
  simpa using swapped

end NcclCore.Lib.Moves
