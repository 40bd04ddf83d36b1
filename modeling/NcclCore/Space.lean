import NcclCore.Bitops
import NcclCore.Lib.Segments

/-! `ncclSpace`, the allocator of ranges of non-negative integers in
`allocator.cc`. The space is a list of cuts; the segment after the last cut is
empty, and segments are alternately full and empty. -/
namespace NcclCore
open Lib

/-- The loop of `insertSegment` that drops repeated cuts. The first list is what
has been written, last cut first; `prev` is the cut before the one read. -/
def filterCuts : List Nat → Nat → List Nat → List Nat
  | written, _, [] => written.reverse
  | written, prev, cur :: unread =>
    let written := cur :: written
    if prev = cur then filterCuts (written.drop (if written.length = 1 then 1 else 2)) 0 unread
    else filterCuts written cur unread

/-- `insertSegment`: two cuts before `index`, and what they fuse. -/
def insertSegment (cuts : List Nat) (index lo hi : Nat) : List Nat :=
  filterCuts (cuts.take index).reverse (lowCut cuts index) (lo :: hi :: cuts.drop index)

example : insertSegment [1, 2, 3, 4] 3 3 4 = [1, 2] := by decide
example : insertSegment [5] 0 0 2 = [2, 5] := by decide

/-- Where the empty segment before `cuts[i]` ends; the last one at the limit. -/
def highCut (cuts : List Nat) (limit i : Nat) : Nat := if i = cuts.length then limit else cuts.getD i 0

/-- The loop of `ncclSpaceTryAlloc` over the empty segments. -/
def tryAllocFrom (cuts : List Nat) (limit size align : Nat) : Nat → Nat → Option Nat × List Nat
  | 0, _ => (none, cuts)
  | fuel + 1, i =>
    if i ≤ cuts.length then
      let lo := lowCut cuts i
      let hi := highCut cuts limit i
      let off := alignUp lo align
      if off + size ≤ hi then
        (some off,
          if i = 0 ∨ off + size = hi then insertSegment cuts i off (off + size)
          else cuts.set (i - 1) (off + size))
      else tryAllocFrom cuts limit size align fuel (i + 2)
    else (none, cuts)

/-- `ncclSpaceTryAlloc`: the offset, none for `ncclInternalError`, and the space
after the call. -/
def ncclSpaceTryAlloc (cuts : List Nat) (limit size align : Nat) : Option Nat × List Nat :=
  tryAllocFrom cuts limit size align (cuts.length + 1) (cuts.length % 2)

/-- The loop of `ncclSpaceFree` over the full segments. -/
def findFull (cuts : List Nat) (offset : Nat) : Nat → Nat → Nat
  | 0, i => i
  | fuel + 1, i => if cuts.getD i 0 ≤ offset then findFull cuts offset fuel (i + 2) else i

/-- `ncclSpaceFree`: whether it succeeds, and the space after the call. -/
def ncclSpaceFree (cuts : List Nat) (offset size : Nat) : Bool × List Nat :=
  if cuts.length = 0 ∨ cuts.getD (cuts.length - 1) 0 ≤ offset then (false, cuts)
  else
    let i := findFull cuts offset cuts.length (1 - cuts.length % 2)
    let lo := lowCut cuts i
    let hi := cuts.getD i 0
    if offset < lo ∨ hi < offset + size then (false, cuts)
    else if i ≠ 0 ∧ lo = offset ∧ offset + size ≠ hi then (true, cuts.set (i - 1) (offset + size))
    else if lo ≠ offset ∧ offset + size = hi then (true, cuts.set i offset)
    else (true, insertSegment cuts i offset (offset + size))

example : ncclSpaceTryAlloc [4, 8] 16 4 4 = (some 0, [8]) := by decide
example : ncclSpaceFree [8] 4 4 = (true, [4]) := by decide

end NcclCore
