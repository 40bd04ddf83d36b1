import Mathlib.Data.List.Basic

/-! A position in a list of blocks of operations that are executed one after the
other. Where every block has exactly one operation of a sort, the position says how
many of that sort have been executed. -/
namespace NcclCore.Lib
open List
variable {α : Type}

/-- The block that is being executed, and how many of its operations are done. -/
structure Cursor where
  block : Nat
  op : Nat
  deriving DecidableEq

/-- The block with a number, which is empty behind the last. -/
def blockAt (blocks : List (List α)) (k : Nat) : List α := blocks[k]?.getD []

namespace Cursor
variable (blocks : List (List α)) (cursor : Cursor)

/-- The operation to be executed next. -/
def next? : Option α := (blockAt blocks cursor.block)[cursor.op]?

/-- The position behind that operation. -/
def advance : Cursor :=
  if cursor.op + 1 < (blockAt blocks cursor.block).length then ⟨cursor.block, cursor.op + 1⟩ else ⟨cursor.block + 1, 0⟩

/-- What has been executed of the current block. -/
def executed : List α := (blockAt blocks cursor.block).take cursor.op

/-- What is left of the current block. -/
def left : List α := (blockAt blocks cursor.block).drop cursor.op

/-- How many operations of a sort have been executed, if every block has one. -/
def upTo (p : α → Bool) : Nat := cursor.block + (cursor.executed blocks).countP p

/-- How many operations are left up to the block `limit`. -/
def remaining (limit : Nat) : Nat := ((blocks.take limit).drop cursor.block).flatten.length - cursor.op

theorem block_eq :
    blockAt blocks cursor.block = cursor.executed blocks ++ cursor.left blocks := (take_append_drop _ _).symm

theorem block_le_upTo (p : α → Bool) : cursor.block ≤ cursor.upTo blocks p :=
  Nat.le_add_right _ _

variable {blocks cursor} {p : α → Bool}

theorem upTo_le (once : (blockAt blocks cursor.block).countP p ≤ 1) : cursor.upTo blocks p ≤ cursor.block + 1 :=
  Nat.add_le_add_left (Nat.le_trans (List.Sublist.countP_le (take_sublist _ _)) once) _

theorem upTo_of_none_left (once : (blockAt blocks cursor.block).countP p = 1)
    (none : ∀ other ∈ cursor.left blocks, ¬ p other) :
    cursor.upTo blocks p = cursor.block + 1 := by
  rw [block_eq, countP_append, countP_eq_zero.mpr none] at once
  rw [upTo, ← once, Nat.add_zero]

variable {op : α} (next : cursor.next? blocks = some op)
include next

theorem left_of_next :
    cursor.left blocks = op :: (blockAt blocks cursor.block).drop (cursor.op + 1) := by
  obtain ⟨bound, rfl⟩ := List.getElem?_eq_some_iff.mp next
  rw [left, getElem_cons_drop]

theorem block_lt_of_next : cursor.block < blocks.length := by
  by_contra beyond
  have empty : blockAt blocks cursor.block = [] := by
    rw [blockAt, getElem?_eq_none (Nat.not_lt.mp beyond), Option.getD_none]
  simp [next?, empty] at next

/-- An operation is either followed by another of its block or is the last. -/
theorem advance_cases :
    (cursor.advance blocks).block = cursor.block ∧
        (cursor.advance blocks).executed blocks = cursor.executed blocks ++ [op] ∧
        cursor.left blocks = op :: (cursor.advance blocks).left blocks ∧ (cursor.advance blocks).left blocks ≠ [] ∨
      cursor.advance blocks = ⟨cursor.block + 1, 0⟩ ∧ blockAt blocks cursor.block = cursor.executed blocks ++ [op] := by
  have left := left_of_next next
  by_cases more : cursor.op + 1 < (blockAt blocks cursor.block).length
  · refine .inl ?_
    simp only [advance, if_pos more]
    refine ⟨trivial, ?_, left, by simpa [Cursor.left] using more⟩
    obtain ⟨bound, found⟩ := List.getElem?_eq_some_iff.mp next
    rw [executed, take_succ_eq_append_getElem bound, found]
    rfl
  · refine .inr ⟨by rw [advance, if_neg more], ?_⟩
    rw [drop_of_length_le (Nat.not_lt.mp more)] at left
    rw [← left]
    exact block_eq blocks cursor

section
variable (once : (blockAt blocks cursor.block).countP p = 1)
include once

/-- Executing an operation counts it. -/
theorem upTo_advance :
    (cursor.advance blocks).upTo blocks p = cursor.upTo blocks p + if p op then 1 else 0 := by
  rcases advance_cases next with ⟨stays, executed, -, -⟩ | ⟨moves, whole⟩
  · rw [upTo, upTo, stays, executed, countP_append, countP_singleton, Nat.add_assoc]
  · rw [whole, countP_append, countP_singleton] at once
    have none : Cursor.executed blocks ⟨cursor.block + 1, 0⟩ = [] := take_zero
    rw [moves, upTo, upTo, none, countP_nil]
    dsimp only
    omega

/-- The operation to be executed next has not been executed. -/
theorem upTo_of_next (here : p op) : cursor.upTo blocks p = cursor.block := by
  rw [block_eq, countP_append, left_of_next next, countP_cons_of_pos here] at once
  rw [upTo]
  omega

end

section
variable {kind : α → Nat}
variable (sorted : (blockAt blocks cursor.block).Pairwise fun a b => kind a ≤ kind b)
include sorted

/-- What comes later in its block than the next operation has not been executed. -/
theorem executed_of_later (done : other ∈ cursor.executed blocks) :
    kind other ≤ kind op := by
  rw [block_eq, left_of_next next] at sorted
  exact (pairwise_append.mp sorted).2.2 other done op (.head _)

theorem left_of_earlier (due : other ∈ cursor.left blocks) :
    kind op ≤ kind other := by
  rw [block_eq, left_of_next next] at sorted
  rw [left_of_next next] at due
  rcases mem_cons.mp due with rfl | later
  · exact Nat.le_refl _
  · exact (pairwise_cons.mp (pairwise_append.mp sorted).2.1).1 other later

/-- What comes earlier in its block than the next operation has been executed. -/
theorem upTo_of_earlier (once : (blockAt blocks cursor.block).countP p = 1)
    (earlier : ∀ other, p other → kind other < kind op) : cursor.upTo blocks p = cursor.block + 1 :=
  upTo_of_none_left once fun other due is =>
    absurd (left_of_earlier next sorted due) (Nat.not_le.mpr (earlier other is))

end

/-- Executing an operation leaves one less. -/
theorem remaining_advance (within : cursor.block < limit) :
    (cursor.advance blocks).remaining blocks limit + 1 = cursor.remaining blocks limit := by
  have exists_block := block_lt_of_next next
  have split : ((blocks.take limit).drop cursor.block).flatten.length =
      (blockAt blocks cursor.block).length + ((blocks.take limit).drop (cursor.block + 1)).flatten.length := by
    rw [← List.getElem_cons_drop (by rw [length_take]; omega)]
    simp [blockAt, exists_block]
  have bound := (List.getElem?_eq_some_iff.mp next).1
  unfold remaining advance
  split
  · rw [split]
    simp only
    omega
  · rw [split]
    simp only
    omega

end Cursor
end NcclCore.Lib
