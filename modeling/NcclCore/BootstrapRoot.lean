import NcclCore.BootstrapInit

/-! The thread of a root (`bootstrapRoot` in `bootstrap.cc`), and the messages that the ranks
of a communicator send to the roots and through their parent. -/
namespace NcclCore

/-- A root within its loop. The answers that were sent are noted. -/
structure RootState (Address Info : Type) where
  c : Nat
  nranks : Int
  iroot : Int
  nroots : Int
  offset : Int
  n2send : Int
  nrecv : Int
  rankInfo : Int → Info
  rankAddressesRoot : Int → Address
  sent : List (Address × Info)

/-- The warnings of a root, which then leaves. -/
inductive RootError where
  | mismatch
  | localIdOutOfRange
  | alreadyCheckedIn
  deriving DecidableEq

/-- A root waits for a message, has left with a warning, or has come to its end, with its
answers and the messages that it has not read. -/
inductive RootEnd (Address Info : Type) where
  | waits (state : RootState Address Info)
  | fails (error : RootError)
  | ends (sent : List (Address × Info)) (unread : List (ExtInfo Address Info))

namespace RootState
variable {Address Info : Type} [DecidableEq Address] [DecidableEq Info] [Zero Address] [Zero Info]

section
variable (state : RootState Address Info)

/-- The first message says how many ranks there are. -/
def setup (info : ExtInfo Address Info) : RootState Address Info :=
  if state.c = 0 then
    let n2send := nRankFromRoot info.iroot info.nranks info.nroots info.offset
    { state with
      nranks := info.nranks
      iroot := info.iroot
      nroots := info.nroots
      offset := info.offset
      n2send
      nrecv := n2send + if 0 < info.offset ∨ 1 < info.nroots then 1 else 0 }
  else state

/-- The previous rank. With several roots, the first one of a root has none here. -/
def prev (localId : Int) : Int :=
  if 1 < state.nroots then localId - 1 else bootstrapPid (localId - 1) state.nrecv

/-- The previous rank is told, or the information is kept. -/
def answerPrev (localId : Int) (info : ExtInfo Address Info) :
    RootState Address Info :=
  let prev := state.prev localId
  if 0 ≤ prev ∧ prev < state.n2send ∧ state.rankAddressesRoot prev ≠ 0 then
    { state with sent := state.sent ++ [(state.rankAddressesRoot prev, info.connectInfo)] }
  else { state with rankInfo := Function.update state.rankInfo localId info.connectInfo }

/-- The rank is told of the next one, or its address is kept. -/
def answerNext (localId : Int) (info : ExtInfo Address Info) :
    RootState Address Info :=
  let next := bootstrapPid (localId + 1) state.nrecv
  if 0 ≤ localId ∧ localId < state.n2send ∧ state.rankInfo next ≠ 0 then
    { state with sent := state.sent ++ [(info.listenRootAddress, state.rankInfo next)] }
  else { state with rankAddressesRoot := Function.update state.rankAddressesRoot localId info.listenRootAddress }

/-- A message in the loop of `bootstrapRoot`. -/
def checkIn (info : ExtInfo Address Info) :
    Except RootError (RootState Address Info) :=
  let state := state.setup info
  if state.nranks ≠ info.nranks ∨ state.nroots ≠ info.nroots ∨ state.iroot ≠ info.iroot ∨
      state.offset ≠ info.offset then .error .mismatch
  else
    let localId := localIdFromRoot info.rank state.iroot state.nranks state.nroots state.offset
    if localId < 0 ∨ state.nrecv ≤ localId then .error .localIdOutOfRange
    else if state.rankAddressesRoot localId ≠ 0 ∨ state.rankInfo localId ≠ 0 then .error .alreadyCheckedIn
    else
      let state := (state.answerPrev localId info).answerNext localId info
      .ok { state with c := state.c + 1 }

/-- What is left to send behind the loop. -/
def sendRemaining : List (Address × Info) :=
  (List.range state.n2send.toNat).flatMap fun (r : Nat) =>
    let next := bootstrapPid (r + 1) state.nrecv
    if state.rankAddressesRoot r ≠ 0 ∧ state.rankInfo next ≠ 0 then [(state.rankAddressesRoot r, state.rankInfo next)]
    else []

end

def start : RootState Address Info := ⟨0, 0, 0, 0, 0, 0, 0, fun _ => 0, fun _ => 0, []⟩

/-- `bootstrapRoot`, which reads these messages one after the other. -/
def bootstrapRoot (state : RootState Address Info) : List (ExtInfo Address Info) → RootEnd Address Info
  | [] => .waits state
  | info :: rest =>
    match state.checkIn info with
    | .error error => .fails error
    | .ok state => if state.c < state.nrecv then state.bootstrapRoot rest
      else .ends (state.sent ++ state.sendRemaining) rest

end RootState

namespace BootstrapCall

/-- The message to a root. -/
def toRoot (root : Int) : BootstrapCall Address Info → Option (ExtInfo Address Info)
  | .sendToRoot root' info => if root' = root then some info else none
  | _ => none

/-- The message to a rank of the parent. -/
def toPeer (peer : Int) : BootstrapCall Address Info → Option Info
  | .bootstrapSend peer' info => if peer' = peer then some info else none
  | _ => none

def isRecv : BootstrapCall Address Info → Bool
  | .socketRecv => true
  | .bootstrapRecv _ => true
  | _ => false

end BootstrapCall

/-- How a communicator starts: with handles of roots, or from a parent that grows. -/
inductive StartKind where
  | normal (nHandles : Nat)
  | grow (parentRanks : Nat)
  deriving DecidableEq

/-- The ranks of a communicator. Each listens at an address of its own, which is not zero. -/
structure StartedRanks (Address Info : Type) [Zero Address] [Zero Info] where
  nRanks : Nat
  kind : StartKind
  netEnable : Bool
  rasEnable : Bool
  rootAddress : Nat → Address
  connectInfo : Nat → Info
  valid : match kind with
    | .normal nHandles => 1 ≤ nHandles ∧ nHandles ≤ nRanks
    | .grow parentRanks => 1 ≤ parentRanks ∧ parentRanks < nRanks
  rootAddress_ne : ∀ rank, rootAddress rank ≠ 0
  rootAddress_inj : Function.Injective rootAddress
  connectInfo_ne : ∀ rank, connectInfo rank ≠ 0

namespace StartedRanks
variable {Address Info : Type} [DecidableEq Address] [DecidableEq Info] [Zero Address] [Zero Info]
  (ranks : StartedRanks Address Info)

def nRoots : Nat :=
  match ranks.kind with
  | .normal nHandles => nHandles
  | .grow _ => 1

def offset : Nat :=
  match ranks.kind with
  | .normal _ => 0
  | .grow parentRanks => parentRanks - 1

/-- A rank. Of the parent, the first and the last have the handle. -/
def rank (r : Nat) : BootstrapRank Address Info :=
  { rank := r
    nRanks := ranks.nRanks
    isGrow := ranks.kind matches .grow _
    nHandles := match ranks.kind with
      | .normal nHandles => nHandles
      | .grow parentRanks => if r = 0 ∨ parentRanks - 1 ≤ r then 1 else 0
    handleRanks := match ranks.kind with
      | .normal _ => some 0
      | .grow parentRanks => if r = 0 ∨ parentRanks - 1 ≤ r then some parentRanks else none
    parentRanks := match ranks.kind with
      | .normal _ => none
      | .grow parentRanks => if r < parentRanks then some parentRanks else none
    netEnable := ranks.netEnable
    rasEnable := ranks.rasEnable
    rootAddress := ranks.rootAddress r
    connectInfo := ranks.connectInfo r }

/-- What a rank sends to a root. -/
def messages (r root : Nat) : List (ExtInfo Address Info) := (ranks.rank r).ringCalls.filterMap (·.toRoot root)

/-- What all ranks send to a root. -/
def messagesTo (root : Nat) : List (ExtInfo Address Info) := (List.range ranks.nRanks).flatMap (ranks.messages · root)

/-- What a rank receives in `bootstrapInit`. -/
def receives (r : Nat) : List (BootstrapCall Address Info) := (ranks.rank r).ringCalls.filter (·.isRecv)

/-- What reaches a rank through the parent. -/
def throughParent (r : Nat) : List Info :=
  (List.range ranks.nRanks).flatMap fun (peer : Nat) =>
    if .bootstrapRecv peer ∈ ranks.receives r then (ranks.rank peer).ringCalls.filterMap (·.toPeer r) else []

/-- What reaches a rank from the roots, with their answers. -/
def fromRoots (sent : Nat → List (Address × Info)) (r : Nat) : List Info :=
  (List.range ranks.nRoots).flatMap fun root =>
    (sent root).filterMap fun answer => if answer.1 = ranks.rootAddress r then some answer.2 else none

end NcclCore.StartedRanks
