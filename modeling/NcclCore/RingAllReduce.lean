import NcclCore.Bitops
import NcclCore.Lib.Lockstep

/-! The ring AllReduce kernel, `runRing` of `all_reduce.h`, with the slicing of
`genericOp` in `prims_simple.h`. Every rank runs the same sequence of primitives on
its own chunks, and each primitive waits for, and posts, a fixed number of slices. -/
namespace NcclCore

def ncclSteps : Nat := 8

/-- The template arguments of `ProtoSimple`. A ring needs room for one slice more
than a chunk has. -/
structure ProtoSimple where
  slicePerChunk : Nat
  stepPerSlice : Nat
  slices : 0 < slicePerChunk
  steps : 0 < stepPerSlice
  room : (slicePerChunk + 1) * stepPerSlice ≤ ncclSteps

/-- `ProtoSimple<ALLREDUCE_CHUNKSTEPS / ALLREDUCE_SLICESTEPS, ALLREDUCE_SLICESTEPS>`. -/
def ProtoSimple.allReduce : ProtoSimple := ⟨2, 2, Nat.two_pos, Nat.two_pos, by decide⟩

/-! ### Slices -/

structure Slice where
  offset : Nat
  size : Nat
  deriving DecidableEq

/-- Both loops of `genericOp` over the slices. A slice that is left empty is waited
for and posted at the start of the buffer. -/
def genericOpLoop (ix nelem : Nat) : (slices sliceSize offset : Nat) → List Slice
  | 0, _, _ => []
  | slices + 1, sliceSize, offset =>
    let sliceSize := min sliceSize (nelem - offset)
    ⟨if offset < nelem then ix + offset else 0, sliceSize⟩ ::
      genericOpLoop ix nelem slices sliceSize (offset + sliceSize)

/-- The slices of `genericOp`, for a step buffer of `stepSize` elements. -/
def genericOp (proto : ProtoSimple) (stepSize ix : Nat) (nelem : Int) : List Slice :=
  let nelem := nelem.toNat
  let sliceSize := stepSize * proto.stepPerSlice
  let sliceSize := max (divUp nelem (16 * proto.slicePerChunk) * 16) (sliceSize / 32)
  genericOpLoop ix nelem proto.slicePerChunk sliceSize 0

/-! ### The kernel -/

/-- What the template arguments of `genericOp` select for a primitive. -/
structure Prim where
  recv : Bool
  send : Bool
  srcInput : Bool
  dstOutput : Bool
  postOp : Bool
  deriving DecidableEq

def directSend : Prim := ⟨false, true, true, false, false⟩
def directRecvReduceDirectSend : Prim := ⟨true, true, true, false, false⟩
def directRecvReduceCopyDirectSend : Prim := ⟨true, true, true, true, true⟩
def directRecvCopyDirectSend : Prim := ⟨true, true, false, true, false⟩
def directRecv : Prim := ⟨true, false, false, true, false⟩

structure PrimCall where
  prim : Prim
  offset : Nat
  nelem : Int

/-- What `ncclCollCbdPart` gives a channel, and `sizeof(T)`. -/
structure RingWork where
  gridOffset : Nat
  channelCount : Nat
  chunkCount : Nat
  sizeofT : Nat
  chunkPositive : 0 < chunkCount
  typeSize : sizeofT ∈ [1, 2, 4, 8]

def modRanks (nranks r : Nat) : Nat := r - if nranks ≤ r then nranks else 0

section
variable (work : RingWork)

def RingWork.loopCount (nranks : Nat) : Nat := nranks * work.chunkCount

/-- `chunkCount` in the loop that starts at `elemOffset`. -/
def RingWork.chunkCountAt (nranks elemOffset : Nat) : Nat :=
  let remCount := work.channelCount - elemOffset
  if remCount < work.loopCount nranks then alignUp (divUp remCount nranks) (16 / work.sizeofT) else work.chunkCount

/-- `nelem` of a chunk. -/
def RingWork.nelem (nranks elemOffset chunk : Nat) : Int :=
  let remCount : Int := work.channelCount - elemOffset
  let chunkCount : Int := work.chunkCountAt nranks elemOffset
  min chunkCount (remCount - chunk * chunkCount)

def RingWork.call (nranks elemOffset : Nat) (prim : Prim) (chunk : Nat) : PrimCall :=
  ⟨prim, work.gridOffset + elemOffset + chunk * work.chunkCountAt nranks elemOffset, work.nelem nranks elemOffset chunk⟩

/-- The body of the loop over `elemOffset`. -/
def RingWork.ringLoop (nranks ringIx elemOffset : Nat) : List PrimCall :=
  let call := work.call nranks elemOffset
  [call directSend (modRanks nranks (ringIx + nranks - 1))] ++
  ((List.range' 2 (nranks - 2)).map fun j => call directRecvReduceDirectSend (modRanks nranks (ringIx + nranks - j))) ++
  [call directRecvReduceCopyDirectSend ringIx] ++
  ((List.range' 1 (nranks - 2)).map fun j => call directRecvCopyDirectSend (modRanks nranks (ringIx + nranks - j))) ++
  [call directRecv (modRanks nranks (ringIx + 1))]

def RingWork.nLoops (nranks : Nat) : Nat := divUp work.channelCount (work.loopCount nranks)

def RingWork.runRing (nranks ringIx : Nat) : List PrimCall :=
  (List.range (work.nLoops nranks)).flatMap fun loop => work.ringLoop nranks ringIx (loop * work.loopCount nranks)

end

/-- A slice of a primitive. -/
structure RingSlice where
  prim : Prim
  slice : Slice

def PrimCall.slices (call : PrimCall) (proto : ProtoSimple) (stepSize : Nat) : List RingSlice :=
  (genericOp proto stepSize call.offset call.nelem).map fun slice => ⟨call.prim, slice⟩

/-- All slices that a rank waits for and posts. -/
def RingWork.ringSlices (work : RingWork) (proto : ProtoSimple) (stepSize nranks ringIx : Nat) : List RingSlice :=
  (work.runRing nranks ringIx).flatMap fun call => call.slices proto stepSize

/-! ### Data -/

/-- What is applied to an input before the reduction, and to the result after it. -/
structure RedOp (M : Type) where
  preOp : M → M
  postOp : M → M

/-- A rank: how many slices it has posted to the next rank and taken from the
previous one, what it has posted, and its output buffer. -/
structure RingRank (M : Type) where
  sent : Nat
  rcvd : Nat
  fifo : Nat → List M
  output : Nat → M

def writeSlice {M : Type} (output : Nat → M) (offset : Nat) (data : List M) : Nat → M :=
  fun e => if offset ≤ e then data[e - offset]?.getD (output e) else output e

/-- `reduceCopy` over the sources of a slice: the input, what was received, or both. -/
def reduceCopy {M : Type} [Add M] (size : Nat) : Option (List M) → Option (List M) → Option (List M)
  | some input, none => some input
  | none, some received => if received.length = size then some received else none
  | some input, some received =>
    if received.length = size then some (List.zipWith (· + ·) input received) else none
  | none, none => none

section
variable {M : Type} [Add M]

/-- One slice of a primitive at a rank whose user input is `input`. -/
def RingRank.exec (redOp : RedOp M) (input : Nat → M) (op : RingSlice) (rank : RingRank M)
    (received : Option (List M)) : Option (RingRank M) :=
  let userInput := (List.range op.slice.size).map fun j => redOp.preOp (input (op.slice.offset + j))
  let reduced := reduceCopy op.slice.size (if op.prim.srcInput then some userInput else none) received
  reduced.map fun data =>
    let data := if op.prim.postOp then data.map redOp.postOp else data
    { sent := if op.prim.send then rank.sent + 1 else rank.sent
      rcvd := if op.prim.recv then rank.rcvd + 1 else rank.rcvd
      fifo := if op.prim.send then Function.update rank.fifo rank.sent data else rank.fifo
      output := if op.prim.dstOutput then writeSlice rank.output op.slice.offset data else rank.output }

/-- The user input of a rank; an operation in place reads what is in the output. -/
def RingRank.userInput (inPlace : Bool) (sendbuff : Nat → M) (rank : RingRank M) : Nat → M :=
  if inPlace then rank.output else sendbuff

def ringPort (used : Bool) : Option Lib.Port := if used then some ⟨0, 0, true⟩ else none

theorem ringPort_posts (used : Bool) (dim : Nat) :
    Lib.Port.posts (ringPort used) dim = if used ∧ dim = 0 then 1 else 0 := by
  cases used <;> cases dim <;> simp [ringPort, Lib.Port.posts]

/-- The ranks of a ring, each connected to the next one. -/
def ringNetwork (n : Nat) [NeZero n] (proto : ProtoSimple) (redOp : RedOp M) (inPlace : Bool)
    (sendbuff : Fin n → Nat → M) : Lib.Network (Fin n) (RingRank M) RingSlice (List M) where
  source rank _ := rank - 1
  dest rank _ := rank + 1
  capacity := ncclSteps / proto.stepPerSlice
  recv op := ringPort op.prim.recv
  send op := ringPort op.prim.send
  sent rank dim := if dim = 0 then rank.sent else 0
  rcvd rank dim := if dim = 0 then rank.rcvd else 0
  slot rank _ k := rank.fifo k
  exec party op rank received := rank.exec redOp (rank.userInput inPlace (sendbuff party)) op received
  sent_exec := by
    intro party op rank received next done dim
    obtain ⟨data, -, rfl⟩ := Option.map_eq_some_iff.mp done
    rw [ringPort_posts]
    cases op.prim.send <;> by_cases zero : dim = 0 <;> simp [zero]
  rcvd_exec := by
    intro party op rank received next done dim
    obtain ⟨data, -, rfl⟩ := Option.map_eq_some_iff.mp done
    rw [ringPort_posts]
    cases op.prim.recv <;> by_cases zero : dim = 0 <;> simp [zero]
  slot_exec := by
    intro party op rank received next done dim k posted
    obtain ⟨data, -, rfl⟩ := Option.map_eq_some_iff.mp done
    have before : k < rank.sent := by
      split at posted
      · exact posted
      · omega
    cases op.prim.send with
    | false => rfl
    | true => exact Function.update_of_ne before.ne ..

/-- Nothing has been posted; in place the output is the input. -/
def RingRank.initial (inPlace : Bool) (sendbuff recvbuff : Nat → M) : RingRank M :=
  ⟨0, 0, fun _ => [], if inPlace then sendbuff else recvbuff⟩

end

/-- An AllReduce on one channel, with the buffers of all ranks. -/
structure RingAllReduce (n : Nat) (M : Type) where
  work : RingWork
  proto : ProtoSimple
  stepSize : Nat
  redOp : RedOp M
  inPlace : Bool
  sendbuff : Fin n → Nat → M
  recvbuff : Fin n → Nat → M

namespace RingAllReduce
variable {n : Nat} {M : Type} (ring : RingAllReduce n M)

def network [NeZero n] [Add M] : Lib.Network (Fin n) (RingRank M) RingSlice (List M) :=
  ringNetwork n ring.proto ring.redOp ring.inPlace ring.sendbuff

def program (i : Fin n) : List RingSlice := ring.work.ringSlices ring.proto ring.stepSize n i.val

def initial (i : Fin n) : RingRank M := .initial ring.inPlace (ring.sendbuff i) (ring.recvbuff i)

end NcclCore.RingAllReduce
