import NcclCore.Rma

/-! One-sided operations through the proxy thread and the network
(`rma_proxy_launch.cc`, `rma_proxy_progress.cc`). A put with a signal adds one to a
word of the peer. Outside of a graph the stream of the peer waits for cumulative
values of that word; in a graph the peer's proxy thread compares the word with what
it consumed so far. -/
namespace NcclCore
open Function

/-! ### Outside of a graph -/

/-- What the launches put on the stream. -/
inductive RmaProxyOp (n : Nat) where
  /-- `ncclRmaProxyPutStartParams`: the write of `readySeqs[peer]`. -/
  | start (ctx : Nat) (peer : Fin n) (opSeq : UInt64)
  /-- `ncclRmaProxyPutDoneParams`: the wait for `doneSeqs[peer]`. -/
  | done (ctx : Nat) (peer : Fin n) (opSeq : UInt64)
  | waitSignal (ctx slot : Nat) (value : UInt64)

structure RmaProxyHost where
  opSeqs : RmaWords
  signalsHost : RmaWords

def RmaProxyHost.initial : RmaProxyHost := ⟨fun _ _ => 0, fun _ _ => 0⟩

/-- The descriptors of put tasks with their sequence numbers (`ncclRmaProxyPutBuildDesc`). -/
def putDescs : List (RmaPut n) → RmaProxyHost → RmaProxyHost × List (RmaPut n × UInt64)
  | [], host => (host, [])
  | task :: rest, host =>
    let opSeq := host.opSeqs task.ctx task.peer + 1
    let (last, descs) := putDescs rest { host with opSeqs := host.opSeqs.set task.ctx task.peer opSeq }
    (last, (task, opSeq) :: descs)

/-- `ncclRmaProxyPutLaunch`. A launch that is flushed in parts, since a queue is full,
is like several launches. -/
def ncclRmaProxyPutLaunch (tasks : List (RmaPut n)) (host : RmaProxyHost) : RmaProxyHost × List (RmaProxyOp n) :=
  let (last, descs) := putDescs tasks host
  (last, descs.map (fun desc => .start desc.1.ctx desc.1.peer desc.2) ++
    descs.map fun desc => .done desc.1.ctx desc.1.peer desc.2)

/-- `ncclRmaProxyWaitLaunch` with the first branch of `ncclRmaProxyWaitParams`. -/
def ncclRmaProxyWaitLaunch (task : RmaWait n) (host : RmaProxyHost) : RmaProxyHost × List (RmaProxyOp n) :=
  let (signalsHost, waits) := cumulativeWaits n task.ctx task.entries host.signalsHost
  ({ host with signalsHost }, waits.map fun wait => .waitSignal task.ctx wait.1 wait.2)

def rmaProxyLaunch (host : RmaProxyHost) : RmaLaunch n → RmaProxyHost × List (RmaProxyOp n)
  | .put tasks => ncclRmaProxyPutLaunch tasks host
  | .wait task => ncclRmaProxyWaitLaunch task host

def rmaProxyBlocks : List (RmaLaunch n) → RmaProxyHost → List (List (RmaProxyOp n)) := launchBlocks rmaProxyLaunch

def rmaProxyStream (launches : List (RmaLaunch n)) : List (RmaProxyOp n) := (rmaProxyBlocks launches .initial).flatten

/-- The descriptors that a program enqueues. -/
def rmaProxyDescs : List (RmaLaunch n) → RmaProxyHost → List (RmaPut n × UInt64)
  | [], _ => []
  | .put tasks :: rest, host => (putDescs tasks host).2 ++ rmaProxyDescs rest (putDescs tasks host).1
  | .wait _ :: rest, host => rmaProxyDescs rest host

/-- The queue of a context and peer (`circularBuffers`), all that is ever enqueued. -/
def rmaProxyQueue (launches : List (RmaLaunch n)) (ctx : Nat) (peer : Fin n) : List (RmaPut n × UInt64) :=
  (rmaProxyDescs launches .initial).filter fun desc => desc.1.ctx = ctx ∧ desc.1.peer = peer

/-- A rank: its stream, the words of its contexts, and for each queue how many
descriptors are issued (`cis`) and how many of these have completed. -/
structure RmaProxyRank where
  pc : Nat
  readySeqs : RmaWords
  doneSeqs : RmaWords
  signalsDev : RmaWords
  cis : Nat → Nat → Nat
  completed : Nat → Nat → Nat

def RmaProxyRank.initial : RmaProxyRank :=
  ⟨0, fun _ _ => 0, fun _ _ => 0, fun _ _ => 0, fun _ _ => 0, fun _ _ => 0⟩

/-- The ranks, the signals in the network, and all signals raised so far. -/
structure RmaProxyState (n : Nat) where
  ranks : Fin n → RmaProxyRank
  flying : List (RmaSlot n)
  raised : List (RmaSlot n)

def RmaProxyState.initial : RmaProxyState n := ⟨fun _ => .initial, [], []⟩

inductive RmaProxyEvent (n : Nat) where
  /-- The stream of a rank executes its next operation. -/
  | stream (rank : Fin n)
  /-- The proxy of a rank issues the next descriptor of a queue. -/
  | issue (rank : Fin n) (ctx : Nat) (peer : Fin n)
  /-- The oldest descriptor in progress completes. -/
  | complete (rank : Fin n) (ctx : Nat) (peer : Fin n)
  /-- A signal arrives. -/
  | land (i : Nat)

def RmaProxyRank.exec (rank : RmaProxyRank) : RmaProxyOp n → Option RmaProxyRank
  | .start ctx peer opSeq => some { rank with readySeqs := rank.readySeqs.set ctx peer opSeq }
  | .done ctx peer opSeq => if cuWaitValueGeq (rank.doneSeqs ctx peer) opSeq then some rank else none
  | .waitSignal ctx slot value => if cuWaitValueGeq (rank.signalsDev ctx slot) value then some rank else none

/-- A put is handed to the network, which adds to the signal if there is one. -/
def raiseSignal (rank : Fin n) (task : RmaPut n) (signals : List (RmaSlot n)) : List (RmaSlot n) :=
  if task.signalMode then signals ++ [⟨task.ctx, task.signalIdx, rank, task.peer⟩] else signals

def bump (counts : Nat → Nat → Nat) (ctx peer : Nat) : Nat → Nat → Nat :=
  update counts ctx (update (counts ctx) peer (counts ctx peer + 1))

/-- An event; the credits of the network and the size of the queues only delay `issue`. -/
def rmaProxyStep (programs : Fin n → List (RmaLaunch n)) (state : RmaProxyState n) :
    RmaProxyEvent n → Option (RmaProxyState n)
  | .stream self => do
    let op ← (rmaProxyStream (programs self))[(state.ranks self).pc]?
    let next ← (state.ranks self).exec op
    return { state with ranks := update state.ranks self { next with pc := next.pc + 1 } }
  | .issue self ctx peer => do
    let rank := state.ranks self
    let desc ← (rmaProxyQueue (programs self) ctx peer)[rank.cis ctx peer]?
    guard (¬ rank.readySeqs ctx peer < desc.2)
    return {
      ranks := update state.ranks self { rank with cis := bump rank.cis ctx peer }
      flying := raiseSignal self desc.1 state.flying
      raised := raiseSignal self desc.1 state.raised }
  | .complete self ctx peer => do
    let rank := state.ranks self
    guard (rank.completed ctx peer < rank.cis ctx peer)
    let desc ← (rmaProxyQueue (programs self) ctx peer)[rank.completed ctx peer]?
    let next := { rank with
      doneSeqs := rank.doneSeqs.set ctx peer desc.2
      completed := bump rank.completed ctx peer }
    return { state with ranks := update state.ranks self next }
  | .land i => do
    let slot ← state.flying[i]?
    let rank := state.ranks slot.dst
    return { state with
      ranks := update state.ranks slot.dst
        { rank with signalsDev := rank.signalsDev.set slot.ctx slot.word (rank.signalsDev slot.ctx slot.word + 1) }
      flying := state.flying.eraseIdx i }

def rmaProxyRun (programs : Fin n → List (RmaLaunch n)) (events : List (RmaProxyEvent n)) : Option (RmaProxyState n) :=
  events.foldlM (rmaProxyStep programs) .initial

/-! ### In a graph -/

/-- What a captured launch puts on the stream, for the descriptor of one of its tasks. -/
inductive RmaPersistOp where
  /-- The write of `readySeq`. -/
  | start (launch task : Nat)
  /-- The wait for `doneSeq`. -/
  | waitDone (launch task : Nat)
  /-- The reset of `doneSeq`. -/
  | resetDone (launch task : Nat)

/-- The launches captured in graphs, and in which order the replays execute them. -/
structure RmaCaptured (n : Nat) where
  captured : List (RmaLaunch n)
  plays : List Nat

/-- The persistent branches of the launches. -/
def rmaPersistLaunch (launch : Nat) : RmaLaunch n → List RmaPersistOp
  | .put tasks => (List.range tasks.length).map (.start launch) ++
      (List.range tasks.length).flatMap fun task => [.waitDone launch task, .resetDone launch task]
  | .wait _ => [.start launch 0, .waitDone launch 0, .resetDone launch 0]

section
variable (program : RmaCaptured n)

/-- The launches that the replays execute. -/
def RmaCaptured.launches : List (RmaLaunch n) :=
  program.plays.filterMap fun launch => program.captured[launch]?

def RmaCaptured.blocks : List (List RmaPersistOp) :=
  program.plays.filterMap fun launch => program.captured[launch]?.map (rmaPersistLaunch launch)

def RmaCaptured.stream : List RmaPersistOp := program.blocks.flatten

end

inductive RmaDescState where
  | ready
  | inProgress
  deriving DecidableEq

/-- The words and the state of a persistent descriptor. -/
structure RmaPersistDesc where
  readySeq : UInt64
  doneSeq : UInt64
  rmaDescState : RmaDescState

def RmaPersistDesc.initial : RmaPersistDesc := ⟨0, 0, .ready⟩

structure RmaPersistRank where
  pc : Nat
  descs : Nat → Nat → RmaPersistDesc
  cpuAccessSignals : RmaWords
  cpuAccessSignalsHost : RmaWords

def RmaPersistRank.initial : RmaPersistRank := ⟨0, fun _ _ => .initial, fun _ _ => 0, fun _ _ => 0⟩

def RmaPersistRank.setDesc (rank : RmaPersistRank) (launch task : Nat) (desc : RmaPersistDesc) : RmaPersistRank :=
  { rank with descs := update rank.descs launch (update (rank.descs launch) task desc) }

structure RmaPersistState (n : Nat) where
  ranks : Fin n → RmaPersistRank
  flying : List (RmaSlot n)
  raised : List (RmaSlot n)

def RmaPersistState.initial : RmaPersistState n := ⟨fun _ => .initial, [], []⟩

inductive RmaPersistEvent (n : Nat) where
  | stream (rank : Fin n)
  /-- The proxy of a rank comes by a descriptor in `ncclRmaProxyPollPersistDesc`. -/
  | poll (rank : Fin n) (launch task : Nat)
  | land (i : Nat)

def RmaPersistRank.exec (rank : RmaPersistRank) : RmaPersistOp → Option RmaPersistRank
  | .start launch task => some (rank.setDesc launch task { rank.descs launch task with readySeq := 1 })
  | .waitDone launch task => if cuWaitValueGeq (rank.descs launch task).doneSeq 1 then some rank else none
  | .resetDone launch task => some (rank.setDesc launch task { rank.descs launch task with doneSeq := 0 })

/-- `signalsAllArrived`. -/
def signalsAllArrived (task : RmaWait n) (rank : RmaPersistRank) : Bool :=
  task.entries.all fun entry =>
    let signalSlot := ncclRmaSignalSlot n entry.signalIdx entry.peer
    ¬ rank.cpuAccessSignals task.ctx signalSlot <
      rank.cpuAccessSignalsHost task.ctx signalSlot + UInt64.ofNat entry.nsignals

/-- The signals of a wait are consumed, entry by entry. -/
def consumeSignals (nRanks ctx : Nat) (entries : List (RmaWaitEntry n)) (host : RmaWords) : RmaWords :=
  entries.foldl (fun host entry =>
    let signalSlot := ncclRmaSignalSlot nRanks entry.signalIdx entry.peer
    host.set ctx signalSlot (host ctx signalSlot + UInt64.ofNat entry.nsignals)) host

/-- `ncclRmaProxyPollPersistDesc` for one descriptor; `none` if it has nothing to do.
Whether an issued put is done is up to the network. -/
def ncclRmaProxyPollPersistDesc (program : RmaCaptured n) (state : RmaPersistState n)
    (self : Fin n) (launch task : Nat) :
    Option (RmaPersistState n) := do
  let rank := state.ranks self
  let desc := rank.descs launch task
  match ← program.captured[launch]? with
  | .put tasks =>
    let put ← tasks[task]?
    match desc.rmaDescState with
    | .ready =>
      guard (desc.readySeq = 1)
      return {
        ranks := update state.ranks self (rank.setDesc launch task ⟨0, desc.doneSeq, .inProgress⟩)
        flying := raiseSignal self put state.flying
        raised := raiseSignal self put state.raised }
    | .inProgress =>
      let next := rank.setDesc launch task ⟨desc.readySeq, 1, .ready⟩
      return { state with ranks := update state.ranks self next }
  | .wait wait =>
    guard (task = 0)
    match desc.rmaDescState with
    | .ready =>
      guard (desc.readySeq = 1)
      let next := rank.setDesc launch task ⟨0, desc.doneSeq, .inProgress⟩
      return { state with ranks := update state.ranks self next }
    | .inProgress =>
      guard (signalsAllArrived wait rank)
      let next := { rank with cpuAccessSignalsHost := consumeSignals n wait.ctx wait.entries rank.cpuAccessSignalsHost }
      return { state with ranks := update state.ranks self (next.setDesc launch task ⟨desc.readySeq, 1, .ready⟩) }

def rmaPersistStep (programs : Fin n → RmaCaptured n) (state : RmaPersistState n) :
    RmaPersistEvent n → Option (RmaPersistState n)
  | .stream self => do
    let op ← (programs self).stream[(state.ranks self).pc]?
    let next ← (state.ranks self).exec op
    return { state with ranks := update state.ranks self { next with pc := next.pc + 1 } }
  | .poll self launch task => ncclRmaProxyPollPersistDesc (programs self) state self launch task
  | .land i => do
    let slot ← state.flying[i]?
    let rank := state.ranks slot.dst
    return { state with
      ranks := update state.ranks slot.dst
        { rank with
          cpuAccessSignals := rank.cpuAccessSignals.set slot.ctx slot.word
            (rank.cpuAccessSignals slot.ctx slot.word + 1) }
      flying := state.flying.eraseIdx i }

def rmaPersistRun (programs : Fin n → RmaCaptured n) (events : List (RmaPersistEvent n)) : Option (RmaPersistState n) :=
  events.foldlM (rmaPersistStep programs) .initial

end NcclCore
