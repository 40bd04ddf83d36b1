import NcclCore.BootstrapRing

/-! The start of a communicator (`bootstrap.cc`): how the ranks are split among the roots,
what a rank calls in `bootstrapInit` and `bootstrapSplit`, and the tables of peer addresses
that `ringAllInfo` fills. -/
namespace NcclCore

/-- `BOOTSTRAP_PID`. -/
def bootstrapPid (i n : Int) : Int := (i + n) % n

def firstRankFromRoot (root nRanks nRoots offset : Int) : Int :=
  if root = -1 then 0
  else
    let nRanks := nRanks - offset
    offset + root * (nRanks / nRoots) + min root (nRanks % nRoots)

def rootIdFromRank (rank nRanks nRoots offset : Int) : Int :=
  if nRoots = 0 ∨ rank < offset then -1
  else
    let nRanks := nRanks - offset
    let rank := rank - offset
    let rmr := nRanks % nRoots
    let rpr := nRanks / nRoots
    let d := rmr * (rpr + 1)
    if rank < d then rank / (rpr + 1) else (rank - d) / rpr + rmr

def nRankFromRoot (root nRanks nRoots offset : Int) : Int :=
  if root = -1 then 0
  else
    let nRanks := nRanks - offset
    let ir := bootstrapPid root nRoots
    let rmr := nRanks % nRoots
    let rpr := nRanks / nRoots
    rpr + if ir < rmr then 1 else 0

def localIdFromRoot (rank root nRanks nRoots offset : Int) : Int :=
  if root = -1 then rank else rank - firstRankFromRoot (bootstrapPid root nRoots) nRanks nRoots offset

def isFirstFromRoot (rank root nRanks nRoots offset : Int) : Bool :=
  rank = firstRankFromRoot root nRanks nRoots offset

/-- `extInfo`: what a rank tells a root. -/
structure ExtInfo (Address Info : Type) where
  rank : Int
  nranks : Int
  iroot : Int
  nroots : Int
  offset : Int
  listenRootAddress : Address
  connectInfo : Info
  deriving DecidableEq

/-- Who is to reach a listening socket. -/
inductive ListenSocket where
  | ring
  | root
  | proxy
  | peer
  deriving DecidableEq

inductive BootstrapAlloc where
  | state
  | peerProxyAddresses
  | proxySocket
  | peerProxyAddressesUDS
  | peerP2pAddresses
  | rasRanks
  | ringData
  deriving DecidableEq

/-- The calls of `bootstrapInit`, `bootstrapSplit` and `ringAllInfo` whose result is
checked. -/
inductive BootstrapCall (Address Info : Type) where
  | ncclCalloc (alloc : BootstrapAlloc)
  | netGetDevice
  | netListen
  | createListenSocket (socket : ListenSocket)
  | sendToRoot (root : Int) (info : ExtInfo Address Info)
  | bootstrapSend (peer : Int) (connectInfo : Info)
  | bootstrapRecv (peer : Int)
  | ncclSocketInit
  | ncclSocketAccept
  | socketRecv
  | ncclSocketClose (listening : Bool)
  | netRingConnect
  | socketRingConnect
  | getUDS
  | ncclProxyInit
  deriving DecidableEq

/-- A rank in `bootstrapInit`, with the handles and the parent that it is given, and the
addresses where it listens for the previous rank and for the root. -/
structure BootstrapRank (Address Info : Type) where
  rank : Nat
  nRanks : Nat
  isGrow : Bool
  nHandles : Nat
  /-- `nRanks` of the first handle. -/
  handleRanks : Option Nat
  /-- `nRanks` of the parent. -/
  parentRanks : Option Nat
  netEnable : Bool
  rasEnable : Bool
  rootAddress : Address
  connectInfo : Info

namespace BootstrapRank
variable {Address Info : Type} [Zero Address] (self : BootstrapRank Address Info)

def offset : Int :=
  if self.isGrow then
    match self.parentRanks with
    | some nRanks => nRanks - 1
    | none => self.handleRanks.getD 0 - 1
  else 0

def currRoot : Int := rootIdFromRank self.rank self.nRanks self.nHandles self.offset

def info : ExtInfo Address Info :=
  { rank := self.rank
    nranks := self.nRanks
    iroot := self.currRoot
    nroots := self.nHandles
    offset := self.offset
    listenRootAddress := if 0 ≤ self.currRoot then self.rootAddress else 0
    connectInfo := self.connectInfo }

def listenCalls : List (BootstrapCall Address Info) :=
  if self.netEnable then [.netGetDevice, .netListen] else [.createListenSocket .ring]

def sendToOwnRoot : List (BootstrapCall Address Info) :=
  if 0 ≤ self.currRoot then [.createListenSocket .root, .sendToRoot self.currRoot self.info] else []

/-- Ranks of the parent tell the previous one through the parent, -/
def sendToPrevPeer : List (BootstrapCall Address Info) :=
  if self.parentRanks.isSome ∧ self.isGrow ∧ self.rank ≠ 0 then [.bootstrapSend (self.rank - 1) self.connectInfo] else []

/-- and the first one of a root tells the previous root. -/
def sendToPrevRoot : List (BootstrapCall Address Info) :=
  let prevRank := bootstrapPid (self.rank - 1) self.nRanks
  let prevRoot := rootIdFromRank prevRank self.nRanks self.nHandles self.offset
  if ((self.isGrow ∧ ∃ nRanks ∈ self.parentRanks, 1 < nRanks) ∨ 1 < self.nHandles) ∧
      isFirstFromRoot self.rank self.currRoot self.nRanks self.nHandles self.offset ∧ 0 ≤ prevRoot then
    [.sendToRoot prevRoot { self.info with rank := prevRank + 1, iroot := prevRoot }]
  else []

def recvFromRoot : List (BootstrapCall Address Info) :=
  if 0 ≤ self.currRoot then
    [.ncclSocketInit, .ncclSocketAccept, .socketRecv, .ncclSocketClose false, .ncclSocketClose true]
  else []

def recvFromNextPeer : List (BootstrapCall Address Info) :=
  if self.isGrow ∧ ∃ nRanks ∈ self.parentRanks, (self.rank : Int) ≠ nRanks - 1 then [.bootstrapRecv (self.rank + 1)]
  else []

/-- The calls of `bootstrapInit` until the ring is connected. -/
def ringCalls : List (BootstrapCall Address Info) :=
  .ncclCalloc .state :: self.listenCalls ++ self.sendToOwnRoot ++ self.sendToPrevPeer ++ self.sendToPrevRoot ++
    self.recvFromRoot ++ self.recvFromNextPeer ++ [if self.netEnable then .netRingConnect else .socketRingConnect]

end BootstrapRank

/-- The fields of `bootstrapRingData`, each a table of `bootstrapState` or `rasRanks`. -/
inductive RingField where
  | peerAddress
  | peerProxy
  | peerUDS
  | rasRank
  deriving DecidableEq

namespace RingField

def offset : RingField → Nat
  | .peerAddress => 0
  | .peerProxy => 28
  | .peerUDS => 56
  | .rasRank => 64

def size : RingField → Nat
  | .peerAddress => 28
  | .peerProxy => 28
  | .peerUDS => 8
  | .rasRank => 56

end RingField

/-- `sizeof(struct bootstrapRingData)`. -/
def ringDataSize : Nat := 120

/-- The tables of a rank by peer and byte, where a missing one is `NULL`. -/
abbrev PeerTables := RingField → Option (Nat → Nat → Nat)

section
variable (tables : PeerTables)

/-- The own entry, as it is packed. -/
def contributed (rank : Nat) (field : RingField) (byte : Nat) : Nat :=
  match tables field with
  | some table => table rank byte
  | none => 0

/-- A byte of `ringData[rank]` behind the packing. -/
def packByte (rank byte : Nat) : Nat :=
  let field := if byte < 28 then RingField.peerAddress else if byte < 56 then .peerProxy
    else if byte < 64 then .peerUDS else .rasRank
  contributed tables rank field (byte - field.offset)

/-- `ringData` behind the packing. -/
def packRingData (rank : Nat) (address : Int) : Nat :=
  let byte := address - (rank * ringDataSize : Nat)
  if 0 ≤ byte ∧ byte < ringDataSize then packByte tables rank byte.toNat else 0

def unpackRingData (ringData : Int → Nat) : PeerTables := fun field =>
  (tables field).map fun _ peer byte => ringData ((peer * ringDataSize + (field.offset + byte) : Nat) : Int)

end

/-- `ringAllInfo`, with the data that `bootstrapAllGather` leaves if it succeeds. A failure
of it goes to `exit`, where `ncclSuccess` is returned. -/
def ringAllInfo (callocFails : Bool) (tables : PeerTables) (gathered : Option (Int → Nat)) : Option PeerTables :=
  if callocFails then none
  else
    match gathered with
    | none => some tables
    | some ringData => some (unpackRingData tables ringData)

/-- A start of a rank: its tables before `ringAllInfo`, and the other calls, before and behind
it. -/
structure BootstrapStart (Address Info : Type) where
  before : List (BootstrapCall Address Info)
  tables : PeerTables
  behind : List (BootstrapCall Address Info)

/-- The tables of a start, if it returns `ncclSuccess`. -/
def BootstrapStart.outcome (start : BootstrapStart Address Info) (fails : BootstrapCall Address Info → Bool)
    (gathered : Option (Int → Nat)) : Option PeerTables :=
  if start.before.any fails then none
  else
    match ringAllInfo (fails (.ncclCalloc .ringData)) start.tables gathered with
    | none => none
    | some tables => if start.behind.any fails then none else some tables

/-- A table that is zero but for the own entry. -/
def ownEntry (rank : Nat) (own : Nat → Nat) (peer byte : Nat) : Nat := if peer = rank then own byte else 0

/-- `bootstrapInit`, unless handles and parent are `NULL`. A failure of `ncclRasCommInit`
leaves a zero entry. -/
def bootstrapInit [Zero Address] (self : BootstrapRank Address Info) (own : RingField → Nat → Nat) (rasFails : Bool) :
    Option (BootstrapStart Address Info) :=
  if self.handleRanks.isNone ∧ self.parentRanks.isNone then none
  else
    some
      { before := self.ringCalls ++
          [.ncclCalloc .peerProxyAddresses, .ncclCalloc .proxySocket, .createListenSocket .proxy,
            .ncclCalloc .peerProxyAddressesUDS, .getUDS, .createListenSocket .peer, .ncclCalloc .peerP2pAddresses] ++
          if self.rasEnable then [.ncclCalloc .rasRanks] else []
        tables := fun field => match field with
          | .rasRank =>
            if self.rasEnable then some (ownEntry self.rank fun byte => if rasFails then 0 else own field byte) else none
          | field => some (ownEntry self.rank (own field))
        behind := [.ncclProxyInit] }

/-- `bootstrapSplit`, with the neighbours as ranks of the parent. -/
def bootstrapSplit (rank : Nat) (prev next : Int) (connectInfo : Info) (netEnable shareResources : Bool)
    (own : RingField → Nat → Nat) : BootstrapStart Address Info where
  before :=
    .ncclCalloc .state :: (if netEnable then [.netGetDevice, .netListen] else [.createListenSocket .ring]) ++
      [.createListenSocket .peer, .bootstrapSend prev connectInfo, .bootstrapRecv next,
        if netEnable then .netRingConnect else .socketRingConnect, .ncclCalloc .peerP2pAddresses] ++
      if shareResources then []
      else [.ncclCalloc .peerProxyAddresses, .ncclCalloc .peerProxyAddressesUDS, .ncclCalloc .proxySocket, .getUDS,
        .createListenSocket .proxy]
  tables field := match field with
    | .peerAddress => some (ownEntry rank (own field))
    | .rasRank => none
    | field => if shareResources then none else some (ownEntry rank (own field))
  behind := if shareResources then [] else [.ncclProxyInit]

/-- What `socketRingAllGather` of a rank gave, if it has returned: the data or a failure. -/
def GatherRank.result (rank : GatherRank) : Option (Option (Int → Nat)) :=
  if rank.failed then some none else if rank.call.isNone then some (some rank.data) else none

/-- The same of `netRingAllGather`. -/
def NetRank.result (n : Nat) (rank : NetRank) : Option (Option (Int → Nat)) :=
  if rank.failed then some none else if rank.round = n - 1 then some (some rank.data) else none

end NcclCore
