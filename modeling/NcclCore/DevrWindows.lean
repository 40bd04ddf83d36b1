import Mathlib.Data.List.Basic

/-! The registry of windows of a communicator (`dev_runtime.cc`): an array of windows
sorted by address, and the memory objects that the windows share. -/
namespace NcclCore
open Function

/-- A growable array as `listInsert` and `listRemove` keep it. -/
structure DevrList (Obj : Type) where
  elems : Nat → Obj
  capacity : Nat
  count : Nat

namespace DevrList
variable {Obj : Type}

def toList (list : DevrList Obj) : List Obj := (List.range list.count).map list.elems

/-- The binary part of `listFindSortedLub`, which leaves at most 16 places. -/
def lubBinary (key : Nat → Nat) (arg : Nat) : Nat → Nat → Nat → Nat × Nat
  | 0, lo, hi => (lo, hi)
  | fuel + 1, lo, hi =>
    if lo + 16 < hi then
      let i := (lo + hi) / 2
      if key i ≤ arg then lubBinary key arg fuel (i + 1) hi else lubBinary key arg fuel lo i
    else (lo, hi)

/-- The linear part of `listFindSortedLub`. -/
def lubLinear (key : Nat → Nat) (arg : Nat) : Nat → Nat → Nat → Nat
  | 0, i, _ => i
  | fuel + 1, i, hi => if i < hi ∧ key i ≤ arg then lubLinear key arg fuel (i + 1) hi else i

/-- The least index whose key is greater than `arg`. -/
def listFindSortedLub (key : Obj → Nat) (list : DevrList Obj) (arg : Nat) : Nat :=
  let range := lubBinary (fun i => key (list.elems i)) arg list.count 0 list.count
  lubLinear (fun i => key (list.elems i)) arg list.count range.1 range.2

/-- The loop of `listInsert` from `j` down to `index`. -/
def shiftUp (index : Nat) : Nat → (Nat → Obj) → Nat → Obj
  | 0, elems => elems
  | j + 1, elems => if j + 1 = index then elems else shiftUp index j (update elems (j + 1) (elems j))

def listInsert (list : DevrList Obj) (index : Nat) (val : Obj) : DevrList Obj where
  elems := update (shiftUp index list.count list.elems) index val
  capacity :=
    if list.capacity < list.count + 1 then if list.capacity * 2 = 0 then 16 else list.capacity * 2 else list.capacity
  count := list.count + 1

/-- The loop of `listRemove` from `i` on. -/
def shiftDown : Nat → Nat → (Nat → Obj) → Nat → Obj
  | 0, _, elems => elems
  | steps + 1, i, elems => shiftDown steps (i + 1) (update elems i (elems (i + 1)))

def listRemove (list : DevrList Obj) (index : Nat) : DevrList Obj :=
  { list with elems := shiftDown (list.count - 1 - index) index list.elems, count := list.count - 1 }

end DevrList

/-- `ncclDevrWindowSorted`. A window is given by its address in memory. -/
structure DevrWindowSorted where
  userAddr : Nat
  size : Nat
  win : Nat
  deriving DecidableEq, Inhabited

/-- `ncclDevrWindow`. -/
structure DevrWindow where
  memory : Nat
  userPtr : Nat
  size : Nat
  deriving DecidableEq

/-- `ncclDevrMemory`. -/
structure DevrMemory where
  address : Nat
  bigOffset : Nat
  refCount : Nat

/-- The part of `ncclDevrState` that keeps the windows. -/
structure DevrRegistry where
  windows : Nat → Option DevrWindow
  winSorted : DevrList DevrWindowSorted
  memories : List DevrMemory

namespace DevrRegistry

def init : DevrRegistry := ⟨fun _ => none, ⟨fun _ => default, 0, 0⟩, []⟩

/-- `symMemoryObtain`: a memory object that is there is shared, another one is put in front. -/
def symMemoryObtain (registry : DevrRegistry) (memory bigOffset : Nat) : DevrRegistry :=
  if registry.memories.any (·.address = memory) then
    { registry with
      memories := registry.memories.map fun mem =>
        if mem.address = memory then { mem with refCount := mem.refCount + 1 } else mem }
  else { registry with memories := ⟨memory, bigOffset, 1⟩ :: registry.memories }

/-- `symWindowCreate` with the reference to its memory. Without an address of the user,
the window is at the address of the memory in the flat address space. -/
def symWindowCreate (lsaSelfBase : Nat) (registry : DevrRegistry) (win memory : Nat)
    (userPtr : Option Nat) (size : Nat) :
    DevrRegistry :=
  let bigOffset := ((registry.memories.find? (·.address = memory)).map (·.bigOffset)).getD 0
  let userAddr := userPtr.getD (lsaSelfBase + bigOffset)
  let i := registry.winSorted.listFindSortedLub (·.userAddr) userAddr
  { registry with
    windows := update registry.windows win (some ⟨memory, userAddr, size⟩)
    winSorted := registry.winSorted.listInsert i ⟨userAddr, size, win⟩ }

/-- The list of memory objects behind `symMemoryDropRef`. -/
def dropRef (memory : Nat) : List DevrMemory → List DevrMemory
  | [] => []
  | mem :: rest =>
    if mem.address = memory then
      if mem.refCount - 1 = 0 then rest else { mem with refCount := mem.refCount - 1 } :: rest
    else mem :: dropRef memory rest

/-- The scan of `symWindowDestroy` over the windows of one address, from below `i` down. -/
def scanDown (elems : Nat → DevrWindowSorted) (userAddr win : Nat) : Nat → Option Nat
  | 0 => none
  | i + 1 =>
    if (elems i).userAddr ≠ userAddr then none
    else if (elems i).win ≠ win then scanDown elems userAddr win i
    else some i

/-- `symWindowDestroy`, with whether the window was found in the array. There is no result
for what is not a window. -/
def symWindowDestroy (registry : DevrRegistry) (win : Nat) : Option (DevrRegistry × Bool) :=
  (registry.windows win).map fun winHost =>
    let i := registry.winSorted.listFindSortedLub (·.userAddr) winHost.userPtr
    let place := scanDown registry.winSorted.elems winHost.userPtr win i
    ({ windows := update registry.windows win none
       winSorted := match place with
         | some i => registry.winSorted.listRemove i
         | none => registry.winSorted
       memories := dropRef winHost.memory registry.memories }, place.isSome)

/-- `ncclDevrFindWindow`. -/
def ncclDevrFindWindow (registry : DevrRegistry) (userAddr : Nat) : Option Nat :=
  let i := registry.winSorted.listFindSortedLub (·.userAddr) userAddr
  let entry := registry.winSorted.elems (i - 1)
  if 0 < i ∧ userAddr - entry.userAddr < entry.size then some entry.win else none

end DevrRegistry

/-- A call of `symMemoryObtain` and `symWindowCreate`, or of `symWindowDestroy`. -/
inductive DevrWindowCall where
  | create (win memory bigOffset : Nat) (userPtr : Option Nat) (size : Nat)
  | destroy (win : Nat)

/-- A new window is where no window is. -/
def DevrRegistry.step (lsaSelfBase : Nat) (registry : DevrRegistry) : DevrWindowCall → Option DevrRegistry
  | .create win memory bigOffset userPtr size =>
    if (registry.windows win).isNone ∧ 0 < size then
      some ((registry.symMemoryObtain memory bigOffset).symWindowCreate lsaSelfBase win memory userPtr size)
    else none
  | .destroy win => (registry.symWindowDestroy win).map (·.1)

end NcclCore
