import Mathlib.Algebra.BigOperators.Fin
import NcclCore.Bitops

/-! The send of a group of requests over several queue pairs (`ncclIbMultiSend` in
`net_ib/p2p.cc`). One array of work requests is edited in place and posted on one
queue pair after the other. -/
namespace NcclCore

/-- `ncclIbComputeLbWeights`: percentages of the devices, the last taking the rest. -/
def ncclIbComputeLbWeights (eventBasedLb : Bool) (devSpeeds : Fin ndevs → Nat) (dev : Fin ndevs) : Nat :=
  let totalSpeed := ∑ d, devSpeeds d
  let weight := fun d => (if eventBasedLb then devSpeeds d * 100 / totalSpeed else 100 / ndevs) % 2 ^ 8
  let totalWeight := (∑ d, weight d) % 2 ^ 8
  if totalWeight < 100 ∧ dev.val = ndevs - 1 then (weight dev + (100 - totalWeight)) % 2 ^ 8 else weight dev

/-- A request of a group with the receiver's buffer (`ncclIbRequest::send` and
`ncclIbSendFifo`). -/
structure IbSendReq where
  data : Nat
  size : Nat
  remoteAddr : Nat

inductive IbOpcode where
  | rdmaWrite
  | rdmaWriteWithImm
  deriving DecidableEq

/-- An `ibv_send_wr` with its scatter element, which is used if `numSge` is 1. -/
structure IbSendWr where
  wrId : Nat
  opcode : IbOpcode
  signaled : Bool
  immData : Nat
  numSge : Nat
  addr : Nat
  length : Nat
  remoteAddr : Nat

/-- The arguments of `ncclIbMultiSend`: the requests of the slot, the devices of the
queue pairs that are used for them, and the settings of the connection. -/
structure IbMultiSend (ndevs : Nat) where
  slot : Nat
  reqs : List IbSendReq
  weights : Fin ndevs → Nat
  qpDevs : List (Fin ndevs)
  immData : Nat
  /-- `remOooRq && localOooRq` -/
  oooRq : Bool
  ar : Bool
  arThreshold : Nat
  /-- The sender's sizes and the receiver's completion records, of all slots. -/
  cmplsRecords : Nat
  remCmplsRecords : Nat

/-- `sizeof(struct ncclIbRequestCompletionRecord)`. -/
def cmplsRecordBytes : Nat := 8 * 4 + 128

namespace IbMultiSend
variable (send : IbMultiSend ndevs)

/-- Whether the immediate value is sent in a work request of its own. -/
def separateImm : Bool :=
  1 < send.reqs.length ∨ (¬ send.oooRq ∧ send.ar ∧ ∃ req ∈ send.reqs.head?, send.arThreshold < req.size)

/-- `wr_id` behind `r + 1` requests: the slot in each of the lowest bytes. -/
def wrId (r : Nat) : Nat := ((List.range (r + 1)).map fun j => (send.slot % 2 ^ 8) * 2 ^ (8 * j)).sum

/-- The work request of a request before the first queue pair. Without a separate one it
carries the immediate value. -/
def initialWr (r : Nat) (req : IbSendReq) : IbSendWr :=
  { wrId := send.wrId r
    opcode := if send.separateImm then .rdmaWrite else .rdmaWriteWithImm
    signaled := !send.separateImm
    immData := if send.separateImm then 0 else send.immData
    numSge := 1
    addr := req.data
    length := 0
    remoteAddr := req.remoteAddr }

/-- The separate work request, which writes the sizes of a group. -/
def lastWr : IbSendWr :=
  { wrId := send.wrId (send.reqs.length - 1)
    opcode := .rdmaWriteWithImm
    signaled := true
    immData := send.immData
    numSge := if 1 < send.reqs.length then 1 else 0
    addr := if 1 < send.reqs.length then send.cmplsRecords + send.slot * (8 * 4) else 0
    length := if 1 < send.reqs.length then send.reqs.length * 4 else 0
    remoteAddr := if 1 < send.reqs.length then send.remCmplsRecords + send.slot * cmplsRecordBytes else 0 }

/-- The length of a chunk before it is cut off, for a queue pair of a device. -/
def chunkLength (size : Nat) (dev : Fin ndevs) : Nat :=
  divUp (divUp (size * send.weights dev) (100 * send.qpDevs.count dev)) 128 * 128 % 2 ^ 32

/-- A request with its work request and `sendOffsets`. -/
structure Slot where
  req : IbSendReq
  wr : IbSendWr
  sendOffset : Nat

/-- The work request for the next queue pair. `num_sge` is cleared for an empty chunk and
never set again. -/
def Slot.load (slot : Slot) (dev : Fin ndevs) : Slot :=
  let length := min ((slot.req.size - slot.sendOffset) % 2 ^ 32) (send.chunkLength slot.req.size dev)
  { slot with wr := { slot.wr with length, numSge := if length = 0 then 0 else slot.wr.numSge } }

/-- Behind the posting. -/
def Slot.advance (slot : Slot) : Slot :=
  { slot with
    sendOffset := min ((slot.sendOffset + slot.wr.length) % 2 ^ 32) slot.req.size
    wr := { slot.wr with
      addr := slot.wr.addr + slot.wr.length
      remoteAddr := slot.wr.remoteAddr + slot.wr.length } }

/-- The chain of work requests that is posted on a queue pair. -/
def chain (slots : List Slot) : List IbSendWr :=
  slots.map (·.wr) ++ if send.separateImm then [send.lastWr] else []

/-- The chains posted on the queue pairs. -/
def postQps : List (Fin ndevs) → List Slot → List (List IbSendWr)
  | [], _ => []
  | dev :: rest, slots =>
    let loaded := slots.map fun slot => slot.load send dev
    send.chain loaded :: postQps rest (loaded.map Slot.advance)

def initialSlots : List Slot := send.reqs.mapIdx fun r req => ⟨req, send.initialWr r req, 0⟩

/-- `ncclIbMultiSend`. -/
def posted : List (List IbSendWr) := send.postQps send.qpDevs send.initialSlots

end NcclCore.IbMultiSend
