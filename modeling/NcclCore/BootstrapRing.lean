import NcclCore.P2pSchedule

/-! The AllGather of the bootstrap ring (`socketRingAllGather`, `socketSendRecv`,
`socketDoubleSendRecv` and `netRingAllGather` in `bootstrap.cc`, `ncclSocketSendRecv` and
`ncclSocketMultiOp` in `socket.cc`), run by all ranks of a ring. A step of the system is a
part of a transfer that a socket takes, or a return of a blocking call. -/
namespace NcclCore
open Function

/-- Ring 0 goes from a rank to the next one, ring 1 to the previous one. -/
inductive Ring where
  | ring0
  | ring1
  deriving DecidableEq

/-- `NCCL_SOCKET_SEND` and `NCCL_SOCKET_RECV`. -/
inductive SocketDir where
  | send
  | recv
  deriving DecidableEq

/-- What a transfer reads or writes: `size`, `senderRecvSize1` or `senderRecvSize2`, or a
slice of the data. -/
inductive RingBuf where
  | size
  | senderRecvSize (ring : Ring)
  | slice (slice : Nat)

/-- The blocking calls of a step: the exchange of the sizes on ring 0 and on ring 1, and of
the data. -/
inductive RingStage where
  | sizes0
  | sizes1
  | data
  deriving DecidableEq

/-- Where a rank is: the offsets of the transfers of a call, and the count of
`ncclSocketMultiOp`. -/
structure RingCall where
  step : Nat
  stage : RingStage
  offset : SocketDir → Ring → Nat
  completedOps : Nat

/-- A rank within a call, or behind the last one. The addresses that were written and the
slices that were received are noted. -/
structure GatherRank where
  call : Option RingCall
  failed : Bool
  senderRecvSize : Ring → Int → Nat
  data : Int → Nat
  written : List Int
  held : List Nat

/-- The ranks and the bytes that are on their way on each ring, by sender. -/
structure RingState (n : Nat) where
  ranks : Fin n → GatherRank
  streams : Fin n × Ring → List Nat

/-- A byte of an `int` in memory. -/
def intByte (x j : Nat) : Nat := x / 256 ^ j % 256

/-- The `int` of four bytes. -/
def intOfBytes (bytes : Int → Nat) : Int :=
  Int.bmod (bytes 0 + 256 * bytes 1 + 256 ^ 2 * bytes 2 + 256 ^ 3 * bytes 3 : Nat) (2 ^ 32)

/-- Memory with bytes stored from an address on. -/
def storeBytes (memory : Int → Nat) (start : Int) (bytes : List Nat) : Int → Nat := fun address =>
  if start ≤ address then bytes[(address - start).toNat]?.getD (memory address) else memory address

namespace RingGather
section
variable (n rank step : Nat)

def totalSteps : Nat := n / 2

def isFinalUnidirectional : Bool := step = totalSteps n - 1 ∧ n % 2 = 0

def sendSliceRing0 : Nat := (rank + n - step) % n
def recvSliceRing0 : Nat := (rank + n - step - 1) % n
def sendSliceRing1 : Nat := (rank + step) % n
def recvSliceRing1 : Nat := (rank + step + 1) % n

def slice : SocketDir → Ring → Nat
  | .send, .ring0 => sendSliceRing0 n rank step
  | .recv, .ring0 => recvSliceRing0 n rank step
  | .send, .ring1 => sendSliceRing1 n rank step
  | .recv, .ring1 => recvSliceRing1 n rank step

/-- Whether a call has transfers on a ring. -/
def uses : RingStage → Ring → Bool
  | .sizes0, ring => ring = .ring0
  | .sizes1, ring => ring = .ring1
  | .data, ring => ring = .ring0 ∨ !isFinalUnidirectional n step

end

variable {n : Nat} [NeZero n] (size capacity : Nat)

/-- The offset of a slice, a product of type `int`. -/
def sliceAddr (slice : Nat) : Int := Int.bmod (slice * size) (2 ^ 32)

def dest (rank : Fin n) : Ring → Fin n
  | .ring0 => rank + 1
  | .ring1 => rank - 1

def source (rank : Fin n) : Ring → Fin n
  | .ring0 => rank - 1
  | .ring1 => rank + 1

def opBuf (n rank step : Nat) (dir : SocketDir) (ring : Ring) : RingStage → RingBuf
  | .data => .slice (slice n rank step dir ring)
  | _ => match dir with
    | .send => .size
    | .recv => .senderRecvSize ring

/-- The length of a transfer. The data is received as long as the sender says. -/
def opSize (senderRecvSize : Ring → Int → Nat) (dir : SocketDir) (ring : Ring) : RingStage → Nat
  | .data => match dir with
    | .send => size
    | .recv => (min (size : Int) (intOfBytes (senderRecvSize ring))).toNat
  | _ => 4

def readByte (rank : GatherRank) (buf : RingBuf) (j : Nat) : Nat :=
  match buf with
  | .size => intByte size j
  | .senderRecvSize ring => rank.senderRecvSize ring j
  | .slice slice => rank.data (sliceAddr size slice + j)

def writeBytes (rank : GatherRank) (buf : RingBuf) (offset : Nat) (bytes : List Nat) : GatherRank :=
  match buf with
  | .size => rank
  | .senderRecvSize ring =>
    { rank with
      senderRecvSize := update rank.senderRecvSize ring (storeBytes (rank.senderRecvSize ring) offset bytes) }
  | .slice slice =>
    { rank with
      data := storeBytes rank.data (sliceAddr size slice + offset) bytes
      written := rank.written ++ (List.range bytes.length).map fun (j : Nat) => sliceAddr size slice + offset + j }

/-- `socketProgress`: a transfer moves on by some bytes. -/
def advance (call : RingCall) (dir : SocketDir) (ring : Ring) (bytes opSize : Nat) : RingCall :=
  { call with
    offset := update call.offset dir
      (update (call.offset dir) ring (call.offset dir ring + bytes))
    completedOps := call.completedOps + if opSize ≤ call.offset dir ring + bytes then 1 else 0 }

def transfer (state : RingState n) (r : Fin n) (dir : SocketDir) (ring : Ring) (bytes : Nat) : Option (RingState n) :=
  let rank := state.ranks r
  match rank.call with
  | none => none
  | some call =>
    let opSize := opSize size rank.senderRecvSize dir ring call.stage
    let buf := opBuf n r call.step dir ring call.stage
    let offset := call.offset dir ring
    if rank.failed = false ∧ uses n call.step call.stage ring ∧ 0 < bytes ∧ offset + bytes ≤ opSize then
      let moved := { rank with call := some (advance call dir ring bytes opSize) }
      match dir with
      | .send =>
        let stream := state.streams (r, ring)
        if stream.length + bytes ≤ capacity then
          some
            { ranks := update state.ranks r moved
              streams := update state.streams (r, ring)
                (stream ++ (List.range bytes).map fun j => readByte size rank buf (offset + j)) }
        else none
      | .recv =>
        let stream := state.streams (source r ring, ring)
        if bytes ≤ stream.length then
          some
            { ranks := update state.ranks r (writeBytes size moved buf offset (stream.take bytes))
              streams := update state.streams (source r ring, ring) (stream.drop bytes) }
        else none
    else none

/-- The end of a loop: `ncclSocketMultiOp` counts the transfers that came to their end,
`ncclSocketSendRecv` looks at the offsets. -/
def isComplete (n : Nat) (rank : GatherRank) (call : RingCall) : Bool :=
  if call.stage = .data ∧ !isFinalUnidirectional n call.step then call.completedOps = 4
  else [Ring.ring0, .ring1].all fun ring => !uses n call.step call.stage ring ||
    [SocketDir.send, .recv].all fun dir => opSize size rank.senderRecvSize dir ring call.stage ≤ call.offset dir ring

def startCall (step : Nat) (stage : RingStage) : RingCall := ⟨step, stage, fun _ _ => 0, 0⟩

def startStep (n step : Nat) : Option RingCall := if step < totalSteps n then some (startCall step .sizes0) else none

/-- What follows a call. -/
def afterCall (n r : Nat) (rank : GatherRank) (call : RingCall) : GatherRank :=
  let truncated := fun ring => decide ((size : Int) < intOfBytes (rank.senderRecvSize ring))
  match call.stage with
  | .sizes0 =>
    if isFinalUnidirectional n call.step then
      if truncated .ring0 then { rank with failed := true }
      else { rank with call := some (startCall call.step .data) }
    else { rank with call := some (startCall call.step .sizes1) }
  | .sizes1 =>
    if truncated .ring0 || truncated .ring1 then { rank with failed := true }
    else { rank with call := some (startCall call.step .data) }
  | .data =>
    { rank with
      call := startStep n (call.step + 1)
      held := rank.held ++ ([Ring.ring0, .ring1].filter (uses n call.step .data)).map (slice n r call.step .recv) }

def ret (state : RingState n) (r : Fin n) : Option (RingState n) :=
  let rank := state.ranks r
  match rank.call with
  | none => none
  | some call =>
    if rank.failed = false ∧ isComplete size n rank call then
      some { state with ranks := update state.ranks r (afterCall size n r rank call) }
    else none

/-- A call of a rank fails, and it leaves the ring. -/
def fail (state : RingState n) (r : Fin n) : Option (RingState n) :=
  if (state.ranks r).call.isSome ∧ (state.ranks r).failed = false then
    some { state with ranks := update state.ranks r { state.ranks r with failed := true } }
  else none

end RingGather

inductive RingEvent (n : Nat) where
  | transfer (rank : Fin n) (dir : SocketDir) (ring : Ring) (bytes : Nat)
  | ret (rank : Fin n)
  | fail (rank : Fin n)

namespace RingGather
variable {n : Nat} [NeZero n]

def step (size capacity : Nat) (state : RingState n) : RingEvent n → Option (RingState n)
  | .transfer rank dir ring bytes => transfer size capacity state rank dir ring bytes
  | .ret rank => ret size state rank
  | .fail rank => fail state rank

/-- All ranks at the start of `socketRingAllGather`. -/
def init (memory : Nat → Int → Nat) : RingState n where
  ranks r :=
    { call := startStep n 0
      failed := false
      senderRecvSize := fun _ _ => 0
      data := memory r
      written := []
      held := [r] }
  streams _ := []

end RingGather

/-- A rank in `netRingAllGather`, within the loop of `netSendRecv` of a round. What was
written and received is noted. -/
structure NetRank where
  round : Nat
  doneSend : Bool
  doneRecv : Bool
  failed : Bool
  data : Int → Nat
  written : List Int
  held : List Nat

/-- The ranks and the messages to the next rank, with their tags. -/
structure NetState (n : Nat) where
  ranks : Fin n → NetRank
  channels : Fin n → List (Nat × List Nat)

inductive NetEvent (n : Nat) where
  | isend (rank : Fin n)
  | irecv (rank : Fin n)
  | ret (rank : Fin n)
  | fail (rank : Fin n)

namespace NetGather
variable {n : Nat} [NeZero n]

def running (n : Nat) (rank : NetRank) : Bool := rank.round < n - 1 ∧ rank.failed = false

/-- `netIsend` of the slice of a round. -/
def isend (size capacity : Nat) (state : NetState n) (r : Fin n) : Option (NetState n) :=
  let rank := state.ranks r
  let sslice := RingGather.sendSliceRing0 n r rank.round
  if running n rank ∧ rank.doneSend = false ∧ (state.channels r).length < capacity then
    some
      { ranks := update state.ranks r { rank with doneSend := true }
        channels := update state.channels r (state.channels r ++
          [(rank.round, (List.range size).map fun (j : Nat) => rank.data (sslice * size + j))]) }
  else none

/-- `netIrecv` of the slice of a round. -/
def irecv (size : Nat) (state : NetState n) (r : Fin n) : Option (NetState n) :=
  let rank := state.ranks r
  let rslice := RingGather.recvSliceRing0 n r rank.round
  match state.channels (r - 1) with
  | [] => none
  | (tag, bytes) :: rest =>
    if running n rank ∧ rank.doneRecv = false ∧ tag = rank.round then
      some
        { ranks := update state.ranks r
            { rank with
              doneRecv := true
              data := storeBytes rank.data (rslice * size) bytes
              written := rank.written ++ (List.range bytes.length).map fun (j : Nat) => (rslice * size + j : Int) }
          channels := update state.channels (r - 1) rest }
    else none

/-- The end of `netSendRecv`. -/
def ret (state : NetState n) (r : Fin n) : Option (NetState n) :=
  let rank := state.ranks r
  if running n rank ∧ rank.doneSend ∧ rank.doneRecv then
    some
      { state with
        ranks := update state.ranks r
          { rank with
            round := rank.round + 1
            doneSend := false
            doneRecv := false
            held := rank.held ++ [RingGather.recvSliceRing0 n r rank.round] } }
  else none

def fail (state : NetState n) (r : Fin n) : Option (NetState n) :=
  if running n (state.ranks r) then
    some { state with ranks := update state.ranks r { state.ranks r with failed := true } }
  else none

def step (size capacity : Nat) (state : NetState n) : NetEvent n → Option (NetState n)
  | .isend rank => isend size capacity state rank
  | .irecv rank => irecv size state rank
  | .ret rank => ret state rank
  | .fail rank => fail state rank

/-- All ranks at the start of `netRingAllGather`. -/
def init (memory : Nat → Int → Nat) : NetState n where
  ranks r := ⟨0, false, false, false, memory r, [], [r]⟩
  channels _ := []

end NcclCore.NetGather
