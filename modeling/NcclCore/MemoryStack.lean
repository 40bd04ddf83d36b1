import Mathlib.Data.List.Basic

/-! The hunks of `ncclMemoryStack` (`include/utils.h`, `misc/utils.cc`). A new hunk is linked
above the current one also when there are hunks above already, which are then lost. -/
namespace NcclCore

structure MemoryHunk where
  addr : UInt64
  size : UInt64
  deriving DecidableEq

/-- The hunk of a frame is given by its place: zero is the stub. -/
structure MemoryFrame where
  hunk : Nat
  bumper : UInt64
  end_ : UInt64

/-- `chain` are the hunks from `stub.above` on, `below` the snapshots of the frames, and
`mallocs` the hunks that `allocateSpilled` obtained. -/
structure MemoryStack where
  chain : List MemoryHunk
  topFrame : MemoryFrame
  below : List MemoryFrame
  mallocs : List MemoryHunk

namespace MemoryStack

def construct : MemoryStack := ⟨[], ⟨0, 0, 0⟩, [], []⟩

/-- The hunks that are freed. -/
def destruct (me : MemoryStack) : List MemoryHunk := me.chain

/-- Where the hunks of a chain end, from the stub on. -/
def ends (chain : List MemoryHunk) : List UInt64 := 0 :: chain.map fun hunk => hunk.addr + hunk.size

/-- The hunk above the top one. -/
def above (me : MemoryStack) : Option MemoryHunk := me.chain[me.topFrame.hunk]?

def nextSize (me : MemoryStack) : UInt64 :=
  (match me.topFrame.hunk with
    | 0 => 0
    | k + 1 => (me.chain[k]?.map (·.size)).getD 0) + 65536

def alignTo (addr align : UInt64) : UInt64 := (addr + align - 1) &&& (0 - align)

/-- Where an object goes that does not fit: out of the hunks, into the hunk above, or into a
new one. -/
inductive Spill where
  | unhunked
  | above (top1 : MemoryHunk)
  | hunk

section
variable (me : MemoryStack)

def spill (size align : UInt64) : Spill :=
  if 8192 ≤ me.topFrame.end_ - me.topFrame.bumper then .unhunked
  else
    match me.above.filter fun top1 => alignTo (top1.addr + 16) align + size ≤ top1.addr + top1.size with
    | some top1 => .above top1
    | none =>
      if me.nextSize < 16 + 64 + size ∧ alignTo me.topFrame.bumper 8 + 16 ≤ me.topFrame.end_ then .unhunked
      else .hunk

/-- The proxy of an object out of the hunks. -/
def unhunked : MemoryStack :=
  { me with topFrame.bumper := alignTo me.topFrame.bumper 8 + 16 }

/-- `top->above = top1`: what was above the top hunk is not on the chain any more. -/
def link (addr : UInt64) : MemoryStack :=
  { me with
    chain := me.chain.take me.topFrame.hunk ++ [⟨addr, me.nextSize⟩]
    topFrame := ⟨me.topFrame.hunk + 1, addr + 16, addr + me.nextSize⟩
    mallocs := ⟨addr, me.nextSize⟩ :: me.mallocs }

/-- `malloc` returns `addr` if it is asked for a hunk. -/
def allocateSpilled (size align addr : UInt64) : MemoryStack :=
  match me.spill size align with
  | .unhunked => me.unhunked
  | .above top1 =>
    { me with topFrame := ⟨me.topFrame.hunk + 1, alignTo (top1.addr + 16) align + size, top1.addr + top1.size⟩ }
  | .hunk =>
    let me := me.link addr
    let uobj := alignTo me.topFrame.bumper align
    if uobj + size ≤ me.topFrame.end_ then { me with topFrame.bumper := uobj + size } else me.unhunked

def fits (size align : UInt64) : Bool :=
  alignTo me.topFrame.bumper align + size ≤ me.topFrame.end_

def allocate (size align addr : UInt64) : MemoryStack :=
  if me.fits size align then { me with topFrame.bumper := alignTo me.topFrame.bumper align + size }
  else me.allocateSpilled size align addr

end

inductive Op where
  | alloc (size align addr : UInt64)
  | push (addr : UInt64)
  | pop

/-- A `Frame` has 40 bytes. -/
def step (me : MemoryStack) : Op → MemoryStack
  | .alloc size align addr => me.allocate size align addr
  | .push addr => { me.allocate 40 8 addr with below := me.topFrame :: me.below }
  | .pop =>
    match me.below with
    | [] => me
    | frame :: below => { me with topFrame := frame, below }

/-- A new hunk for the object has none above it. -/
def GrowsAtEnd (me : MemoryStack) (size align : UInt64) : Prop :=
  me.fits size align = false → me.spill size align matches .hunk → me.above = none

def AtEnd (me : MemoryStack) : Op → Prop
  | .alloc size align _ => me.GrowsAtEnd size align
  | .push _ => me.GrowsAtEnd 40 8
  | .pop => True

def AlwaysAtEnd (me : MemoryStack) : List Op → Prop
  | [] => True
  | op :: ops => me.AtEnd op ∧ (me.step op).AlwaysAtEnd ops

end MemoryStack

namespace MemoryStackProofs
open MemoryStack List
variable {me : MemoryStack}

/-- The hunks of the frames are on the chain, each not above that of the next frame. The chain
has at most the hunks obtained. -/
structure Chained (me : MemoryStack) : Prop where
  placed : ∀ frame ∈ me.topFrame :: me.below, (ends me.chain)[frame.hunk]? = some frame.end_
  nested : (me.topFrame :: me.below).Pairwise fun upper lower => lower.hunk ≤ upper.hunk
  bound : me.chain.length ≤ me.mallocs.length
  complete : me.chain.length = me.mallocs.length → me.chain.Perm me.mallocs

theorem top_le (placed : (ends me.chain)[me.topFrame.hunk]? = some me.topFrame.end_) :
    me.topFrame.hunk ≤ me.chain.length := by
  obtain ⟨inside, -⟩ := List.getElem?_eq_some_iff.mp placed
  simpa [ends, Nat.lt_succ_iff] using inside

/-- Hunks up to a place are the same after those above it are replaced. -/
theorem ends_take_append (chain above : List MemoryHunk) (isPlace : k ≤ n) (inside : n ≤ chain.length) :
    (ends (chain.take n ++ above))[k]? = (ends chain)[k]? := by
  cases k with
  | zero => rfl
  | succ k =>
    rw [ends, ends, getElem?_cons_succ, getElem?_cons_succ, getElem?_map, getElem?_map,
      getElem?_append_left (by rw [length_take]; omega), getElem?_take_of_lt isPlace]

/-- What an allocation does to the hunks. -/
theorem allocate_cases (placed : (ends me.chain)[me.topFrame.hunk]? = some me.topFrame.end_) (size align addr : UInt64) :
    let next := me.allocate size align addr
    next.below = me.below ∧ me.topFrame.hunk ≤ next.topFrame.hunk ∧
      (ends next.chain)[next.topFrame.hunk]? = some next.topFrame.end_ ∧
      (next.chain = me.chain ∧ next.mallocs = me.mallocs ∧ me.GrowsAtEnd size align ∨
        ∃ hunk, next.chain = me.chain.take me.topFrame.hunk ++ [hunk] ∧ next.mallocs = hunk :: me.mallocs ∧
          (me.GrowsAtEnd size align ↔ me.above = none)) := by
  have top := top_le placed
  simp only [allocate, GrowsAtEnd, allocateSpilled]
  cases fits : me.fits size align with
  | true => simpa using placed
  | false =>
    cases spilled : me.spill size align with
    | unhunked => simpa [unhunked] using placed
    | above top1 =>
      have there : me.above = some top1 := by
        simp only [spill] at spilled
        split at spilled
        · cases spilled
        split at spilled
        next found =>
          cases spilled
          exact (Option.filter_eq_some_iff.mp found).1
        next => split at spilled <;> cases spilled
      rw [above] at there
      simp [ends, there]
    | hunk =>
      simp only [Bool.false_eq_true, if_false]
      split <;> simp [link, unhunked, ends, top]

/-- An allocation, with a snapshot of the frame. -/
theorem Chained.allocate (chained : Chained me) (size align addr : UInt64) :
    let next := { me.allocate size align addr with below := me.topFrame :: me.below }
    Chained next ∧
      (next.chain.length = next.mallocs.length ↔ me.chain.length = me.mallocs.length ∧ me.GrowsAtEnd size align) := by
  obtain ⟨placed, nested, bound, complete⟩ := chained
  have top := top_le (placed _ (.head _))
  have moves := allocate_cases (placed _ (.head _)) size align addr
  generalize me.allocate size align addr = next at moves ⊢
  obtain ⟨chain, frame, below, mallocs⟩ := next
  dsimp only at moves ⊢
  obtain ⟨-, up, here, moves⟩ := moves
  have nested' : (frame :: me.topFrame :: me.below).Pairwise fun upper lower => lower.hunk ≤ upper.hunk := by
    refine pairwise_cons.mpr ⟨forall_mem_cons.mpr ⟨up, fun lower member => ?_⟩, nested⟩
    exact Nat.le_trans ((pairwise_cons.mp nested).1 lower member) up
  rcases moves with ⟨rfl, rfl, atEnd⟩ | ⟨hunk, rfl, rfl, atEnd⟩
  · exact ⟨⟨forall_mem_cons.mpr ⟨here, placed⟩, nested', bound, complete⟩, (and_iff_left atEnd).symm⟩
  · have length : (me.chain.take me.topFrame.hunk ++ [hunk]).length = me.topFrame.hunk + 1 := by simp [top]
    rw [length_cons, atEnd, above, getElem?_eq_none_iff]
    refine ⟨⟨forall_mem_cons.mpr ⟨here, fun frame member => ?_⟩, nested', ?_, fun same => ?_⟩, by omega⟩
    · have lower : frame.hunk ≤ me.topFrame.hunk := by
        rcases mem_cons.mp member with rfl | below
        · exact Nat.le_refl _
        · exact (pairwise_cons.mp nested).1 frame below
      exact (ends_take_append _ _ lower top).trans (placed frame member)
    · rw [length, length_cons]
      omega
    · rw [length, length_cons] at same
      rw [take_of_length_le (by omega)]
      exact (perm_append_singleton _ _).trans (.cons _ (complete (by omega)))

theorem Chained.step (chained : Chained me) (op : Op) : Chained (me.step op) ∧
    ((me.step op).chain.length = (me.step op).mallocs.length ↔ me.chain.length = me.mallocs.length ∧ me.AtEnd op) := by
  cases op with
  | alloc size align addr =>
    obtain ⟨after, same⟩ := chained.allocate size align addr
    have below := (allocate_cases (chained.placed _ (.head _)) size align addr).1
    have fewer : (me.step (.alloc size align addr)).topFrame :: (me.step (.alloc size align addr)).below <+
        (me.allocate size align addr).topFrame :: me.topFrame :: me.below := by
      rw [MemoryStack.step, below]
      exact .cons_cons _ (sublist_cons_self _ _)
    exact ⟨{ after with
      placed := fun frame member => after.placed frame (fewer.mem member)
      nested := after.nested.sublist fewer }, same⟩
  | push addr => exact chained.allocate 40 8 addr
  | pop =>
    simp only [MemoryStack.step]
    split
    · exact ⟨chained, (and_iff_left trivial).symm⟩
    next frame below pushed =>
      have placed := chained.placed
      rw [pushed] at placed
      exact ⟨{ chained with
        placed := fun frame member => placed frame (.tail _ member)
        nested := (pairwise_cons.mp (pushed ▸ chained.nested)).2 }, (and_iff_left trivial).symm⟩

theorem Chained.run (chained : Chained me) (ops : List Op) : Chained (ops.foldl MemoryStack.step me) ∧
    ((ops.foldl MemoryStack.step me).chain.length = (ops.foldl MemoryStack.step me).mallocs.length ↔
      me.chain.length = me.mallocs.length ∧ me.AlwaysAtEnd ops) := by
  induction ops generalizing me with
  | nil => exact ⟨chained, (and_iff_left trivial).symm⟩
  | cons op ops ih =>
    obtain ⟨after, same⟩ := chained.step op
    obtain ⟨last, same'⟩ := ih after
    refine ⟨last, ?_⟩
    rw [foldl_cons, same', same, and_assoc, AlwaysAtEnd]

theorem chained_construct : Chained construct := by
  refine ⟨?_, pairwise_singleton _ _, Nat.le_refl _, fun _ => .nil⟩
  simp [construct, ends]

/-- After every sequence of calls each hunk is freed once, if and only if no new hunk was
linked where one was above already. -/
theorem hunks_freed_iff (ops : List Op) : let me := ops.foldl MemoryStack.step construct
    me.destruct.Perm me.mallocs ↔ construct.AlwaysAtEnd ops := by
  obtain ⟨chained, same⟩ := chained_construct.run ops
  rw [← same.trans (and_iff_right rfl)]
  exact ⟨Perm.length_eq, chained.complete⟩

/-- A hunk that is lost is in no use: the hunks of all frames stay on the chain, in their
places. -/
theorem frames_on_chain (ops : List Op) : let me := ops.foldl MemoryStack.step construct
    ∀ frame ∈ me.topFrame :: me.below, (ends me.chain)[frame.hunk]? = some frame.end_ :=
  (chained_construct.run ops).1.placed

/-- The first hunk is for a frame. Once that is popped, an object that is too large for it and
for the next hunk gets a new hunk for its proxy. -/
theorem hunk_above_lost :
    let me := [.push 4096, .pop, .alloc 100000 16 81920].foldl MemoryStack.step construct
    me.mallocs = [⟨81920, 65536⟩, ⟨4096, 65536⟩] ∧ me.destruct = [⟨81920, 65536⟩] := by
  decide

end NcclCore.MemoryStackProofs
