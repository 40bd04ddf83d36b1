import NcclCore.CeColl
import NcclCore.Lib.Digits

/-! One-sided operations, and how the copy engine does them (`rma.cc`, `rma_ce.cc`). A put with a signal
raises a signal of its rank on the peer, and a WaitSignal waits for numbers of
signals. Outside of a graph the signals are sequence numbers, and a wait compares
with the number of signals that all waits so far asked for. In a graph they are
binary flags: a put waits until the peer acknowledged the signal before. -/
namespace NcclCore
open Function

/-- `ncclRmaSignalSlot`. -/
def ncclRmaSignalSlot (nRanks sigIdx rank : Nat) : Nat := sigIdx * nRanks + rank

/-- A slot of the arrays belongs to one index and one rank. -/
theorem signalSlot_eq_iff {n : Nat} {i j : Nat} {a b : Fin n} :
    ncclRmaSignalSlot n i a = ncclRmaSignalSlot n j b ↔ i = j ∧ a = b := by
  rw [ncclRmaSignalSlot, ncclRmaSignalSlot, Lib.digits_inj a.isLt b.isLt, Fin.ext_iff]

/-- A signal of a context: from one rank to another, by its index. -/
@[ext]
structure RmaSlot (n : Nat) where
  ctx : Nat
  signalIdx : Nat
  src : Fin n
  dst : Fin n
  deriving DecidableEq

/-- The word of a signal in the arrays of the receiver. -/
def RmaSlot.word (slot : RmaSlot n) : Nat := ncclRmaSignalSlot n slot.signalIdx slot.src

theorem RmaSlot.eq_of_word {slot slot' : RmaSlot n} (dst : slot.dst = slot'.dst) (ctx : slot.ctx = slot'.ctx)
    (word : slot.word = slot'.word) : slot = slot' := by
  obtain ⟨signalIdx, src⟩ := signalSlot_eq_iff.mp word
  exact RmaSlot.ext ctx signalIdx src dst

/-- `CU_STREAM_WAIT_VALUE_GEQ` on 64 bits, a cyclic comparison. -/
def cuWaitValueGeq (current value : UInt64) : Bool := (current - value).toNat < 2 ^ 63

/-- A put task; `signalMode` says whether it raises a signal. -/
structure RmaPut (n : Nat) where
  ctx : Nat
  peer : Fin n
  signalIdx : Nat
  signalMode : Bool

/-- A descriptor of a wait: the signals to wait for are a non-negative `int`. -/
structure RmaWaitEntry (n : Nat) where
  peer : Fin n
  signalIdx : Nat
  nsignals : Fin (2 ^ 31)

structure RmaWait (n : Nat) where
  ctx : Nat
  entries : List (RmaWaitEntry n)

/-- A plan of put tasks or of one WaitSignal. -/
inductive RmaLaunch (n : Nat) where
  | put (tasks : List (RmaPut n))
  | wait (task : RmaWait n)

/-- `isLsaAccessible`: the peer is in the LSA team of the rank. -/
def isLsaAccessible (lsaTeam : Fin n → Nat) (self peer : Fin n) : Bool := lsaTeam peer == lsaTeam self

/-- The part of a plan that is for some of the peers, if there is one. -/
def RmaLaunch.withPeers (keeps : Fin n → Bool) : RmaLaunch n → Option (RmaLaunch n)
  | .put tasks =>
    let kept := tasks.filter fun task => keeps task.peer
    if kept.isEmpty then none else some (.put kept)
  | .wait task =>
    let kept := task.entries.filter fun entry => keeps entry.peer
    if kept.isEmpty then none else some (.wait ⟨task.ctx, kept⟩)

/-- What `scheduleRmaTasksToPlan` gives to the copy engine: the peers in the LSA team. -/
def cePlans (lsaTeam : Fin n → Nat) (plans : Fin n → List (RmaLaunch n)) (self : Fin n) : List (RmaLaunch n) :=
  (plans self).filterMap (RmaLaunch.withPeers (isLsaAccessible lsaTeam self))

/-- What it gives to the proxy: all other peers. -/
def proxyPlans (lsaTeam : Fin n → Nat) (plans : Fin n → List (RmaLaunch n)) (self : Fin n) : List (RmaLaunch n) :=
  (plans self).filterMap (RmaLaunch.withPeers fun peer => !isLsaAccessible lsaTeam self peer)

/-- The signals that the waits of a program ask of a peer, over all their entries. -/
def awaited (launches : List (RmaLaunch n)) (ctx : Nat) (peer : Fin n) (signalIdx : Nat) : Nat :=
  (launches.map fun launch =>
    match launch with
    | .put _ => 0
    | .wait task =>
      if task.ctx = ctx then
        ((task.entries.filter fun entry => entry.peer = peer ∧ entry.signalIdx = signalIdx).map (·.nsignals.val)).sum
      else 0).sum

/-- An array of 64-bit words for each context. -/
abbrev RmaWords : Type := Nat → Nat → UInt64

def RmaWords.set (words : RmaWords) (ctx slot : Nat) (value : UInt64) : RmaWords :=
  update words ctx (update (words ctx) slot value)

theorem RmaWords.set_apply (words : RmaWords) (ctx slot ctx' slot' : Nat) (value : UInt64) :
    words.set ctx slot value ctx' slot' = if ctx' = ctx ∧ slot' = slot then value else words ctx' slot' := by
  by_cases sameCtx : ctx' = ctx
  · subst sameCtx
    by_cases sameSlot : slot' = slot <;> simp [set, sameSlot]
  · simp [set, sameCtx]

/-! ### In a graph -/

/-- What the launches of a graph put on the stream. The slots are those of the
rank's own arrays, or of the peer's for a copy. The copy of the data is left out. -/
inductive RmaGraphOp (n : Nat) where
  | waitAck (ctx slot : Nat)
  | resetAck (ctx slot : Nat)
  | writeSignal (ctx : Nat) (peer : Fin n) (slot : Nat)
  | waitSignal (ctx slot : Nat)
  | resetSignal (ctx slot : Nat)
  | writeAck (ctx : Nat) (peer : Fin n) (slot : Nat)
  deriving DecidableEq

/-- `ncclRmaCePutLaunchPersist`. -/
def ncclRmaCePutLaunchPersist (self : Fin n) (tasks : List (RmaPut n)) : List (RmaGraphOp n) :=
  tasks.flatMap fun task =>
    if task.signalMode then
      [.waitAck task.ctx (ncclRmaSignalSlot n task.signalIdx task.peer),
        .resetAck task.ctx (ncclRmaSignalSlot n task.signalIdx task.peer),
        .writeSignal task.ctx task.peer (ncclRmaSignalSlot n task.signalIdx self)]
    else []

/-- The persistent branch of `ncclRmaCeWaitLaunch`. -/
def ncclRmaCeWaitLaunchPersist (self : Fin n) (task : RmaWait n) : List (RmaGraphOp n) :=
  task.entries.flatMap fun entry => (List.range entry.nsignals).flatMap fun _ =>
    [.waitSignal task.ctx (ncclRmaSignalSlot n entry.signalIdx entry.peer),
      .resetSignal task.ctx (ncclRmaSignalSlot n entry.signalIdx entry.peer),
      .writeAck task.ctx entry.peer (ncclRmaSignalSlot n entry.signalIdx self)]

def rmaGraphLaunch (self : Fin n) : RmaLaunch n → List (RmaGraphOp n)
  | .put tasks => ncclRmaCePutLaunchPersist self tasks
  | .wait task => ncclRmaCeWaitLaunchPersist self task

/-- The stream of a rank that replays the captured program. -/
def rmaGraphStream (self : Fin n) (launches : List (RmaLaunch n)) : List (RmaGraphOp n) :=
  launches.flatMap (rmaGraphLaunch self)

/-- A rank: how much of its stream is executed, `graphSignalsDev` and `graphAckDev`
of its contexts. -/
structure RmaGraphRank where
  pc : Nat
  graphSignalsDev : RmaWords
  graphAckDev : RmaWords

/-- The state after `ncclRmaCeInit`: no signal, and all acknowledged. -/
def RmaGraphRank.initial : RmaGraphRank := ⟨0, fun _ _ => 0, fun _ _ => 1⟩

abbrev RmaGraphState (n : Nat) : Type := Fin n → RmaGraphRank

section
variable (state : RmaGraphState n)

def RmaGraphState.setSignal (rank : Fin n) (ctx slot : Nat) (value : UInt64) : RmaGraphState n :=
  update state rank
    { state rank with graphSignalsDev := (state rank).graphSignalsDev.set ctx slot value }

def RmaGraphState.setAck (rank : Fin n) (ctx slot : Nat) (value : UInt64) : RmaGraphState n :=
  update state rank { state rank with graphAckDev := (state rank).graphAckDev.set ctx slot value }

/-- An operation on the stream of `self`; `none` if it is a wait that has to go on. -/
def RmaGraphState.exec (self : Fin n) : RmaGraphOp n → Option (RmaGraphState n)
  | .waitAck ctx slot => if cuWaitValueGeq ((state self).graphAckDev ctx slot) 1 then some state else none
  | .resetAck ctx slot => some (state.setAck self ctx slot 0)
  | .writeSignal ctx peer slot => some (state.setSignal peer ctx slot 1)
  | .waitSignal ctx slot => if cuWaitValueGeq ((state self).graphSignalsDev ctx slot) 1 then some state else none
  | .resetSignal ctx slot => some (state.setSignal self ctx slot 0)
  | .writeAck ctx peer slot => some (state.setAck peer ctx slot 1)

end

/-- The stream of a rank executes its next operation. -/
def rmaGraphStep (programs : Fin n → List (RmaLaunch n)) (state : RmaGraphState n) (self : Fin n) :
    Option (RmaGraphState n) := do
  let op ← (rmaGraphStream self (programs self))[(state self).pc]?
  let next ← state.exec self op
  return update next self { next self with pc := (next self).pc + 1 }

/-- A run, given by the ranks whose streams go on. -/
def rmaGraphRun (programs : Fin n → List (RmaLaunch n)) (ranks : List (Fin n)) : Option (RmaGraphState n) :=
  ranks.foldlM (rmaGraphStep programs) fun _ => .initial

/-! ### Outside of a graph -/

/-- What the launches outside of a graph put on the stream. -/
inductive RmaCeOp (n : Nat) where
  /-- The write of a sequence number to `signalOpSeqsDev[index]`. -/
  | stage (ctx index : Nat) (value : UInt64)
  /-- The copy of `signalOpSeqsDev[index]` to the peer's `signalsDev[slot]`. -/
  | writeSignal (ctx index : Nat) (peer : Fin n) (slot : Nat)
  | waitSignal (ctx slot : Nat) (value : UInt64)

/-- The host's counters: the numbers of the last signals to each peer, and the
signals that the waits asked for. -/
structure RmaCeHost where
  signalOpSeqs : RmaWords
  signalsHost : RmaWords

def RmaCeHost.initial : RmaCeHost := ⟨fun _ _ => 0, fun _ _ => 0⟩

/-- One round of `ncclRmaCePutLaunchNonPersist`: the tasks at the heads of the peers'
queues, from stage slot `nSeqStageOps` on. -/
def putRound (self : Fin n) : List (RmaPut n) → Nat → RmaCeHost → RmaCeHost × List (RmaCeOp n) × List (RmaCeOp n)
  | [], _, host => (host, [], [])
  | task :: rest, nSeqStageOps, host =>
    if task.signalMode then
      let signalSlot := ncclRmaSignalSlot n task.signalIdx task.peer
      let seq := host.signalOpSeqs task.ctx signalSlot + 1
      let (last, stages, signals) := putRound self rest (nSeqStageOps + 1)
        { host with signalOpSeqs := host.signalOpSeqs.set task.ctx signalSlot seq }
      (last, .stage task.ctx nSeqStageOps seq :: stages,
        .writeSignal task.ctx nSeqStageOps task.peer (ncclRmaSignalSlot n task.signalIdx self) :: signals)
    else putRound self rest nSeqStageOps host

/-- The peers in the cyclic order of the rounds, the rank itself last. -/
def cyclicPeers (self : Fin n) : List (Fin n) := (List.range (n - 1)).map (fun step => lsaPeer self (step + 1)) ++ [self]

/-- The tasks of round `k`: the `k`-th of every peer that has so many. -/
def roundTasks (self : Fin n) (tasks : List (RmaPut n)) (k : Nat) : List (RmaPut n) :=
  (cyclicPeers self).filterMap fun peer => (tasks.filter (·.peer = peer))[k]?

/-- The rounds from `k` on, as long as a peer has tasks left. -/
def putRounds (self : Fin n) (tasks : List (RmaPut n)) : (rounds k : Nat) → RmaCeHost → RmaCeHost × List (RmaCeOp n)
  | 0, _, host => (host, [])
  | rounds + 1, k, host =>
    let (next, stages, signals) := putRound self (roundTasks self tasks k) 0 host
    let (last, rest) := putRounds self tasks rounds (k + 1) next
    (last, stages ++ signals ++ rest)

/-- `ncclRmaCePutLaunchNonPersist`. There are as many rounds as the longest queue of
a peer has tasks; further ones are empty. -/
def ncclRmaCePutLaunchNonPersist (self : Fin n) (tasks : List (RmaPut n)) (host : RmaCeHost) :
    RmaCeHost × List (RmaCeOp n) :=
  putRounds self tasks tasks.length 0 host

/-- The waits of a WaitSignal outside of a graph, each for the signals that all waits
on its slot so far asked for. -/
def cumulativeWaits (nRanks ctx : Nat) : List (RmaWaitEntry n) → RmaWords → RmaWords × List (Nat × UInt64)
  | [], signalsHost => (signalsHost, [])
  | entry :: rest, signalsHost =>
    let signalSlot := ncclRmaSignalSlot nRanks entry.signalIdx entry.peer
    let waitValue := signalsHost ctx signalSlot + UInt64.ofNat entry.nsignals
    let (last, waits) := cumulativeWaits nRanks ctx rest (signalsHost.set ctx signalSlot waitValue)
    (last, (signalSlot, waitValue) :: waits)

/-- The other branch of `ncclRmaCeWaitLaunch`. -/
def ncclRmaCeWaitLaunchNonPersist (task : RmaWait n) (host : RmaCeHost) : RmaCeHost × List (RmaCeOp n) :=
  let (signalsHost, waits) := cumulativeWaits n task.ctx task.entries host.signalsHost
  ({ host with signalsHost }, waits.map fun wait => .waitSignal task.ctx wait.1 wait.2)

def rmaCeLaunch (self : Fin n) (host : RmaCeHost) : RmaLaunch n → RmaCeHost × List (RmaCeOp n)
  | .put tasks => ncclRmaCePutLaunchNonPersist self tasks host
  | .wait task => ncclRmaCeWaitLaunchNonPersist task host

/-- What each launch of a program puts on the stream. -/
def launchBlocks (run : Host → RmaLaunch n → Host × List Op) : List (RmaLaunch n) → Host → List (List Op)
  | [], _ => []
  | launch :: rest, host =>
    let (next, ops) := run host launch
    ops :: launchBlocks run rest next

def rmaCeBlocks (self : Fin n) : List (RmaLaunch n) → RmaCeHost → List (List (RmaCeOp n)) :=
  launchBlocks (rmaCeLaunch self)

def rmaCeStream (self : Fin n) (launches : List (RmaLaunch n)) : List (RmaCeOp n) :=
  (rmaCeBlocks self launches .initial).flatten

/-- A rank: how much of its stream is executed, `signalOpSeqsDev` and `signalsDev`. -/
structure RmaCeRank where
  pc : Nat
  signalOpSeqsDev : RmaWords
  signalsDev : RmaWords

def RmaCeRank.initial : RmaCeRank := ⟨0, fun _ _ => 0, fun _ _ => 0⟩

abbrev RmaCeState (n : Nat) : Type := Fin n → RmaCeRank

def RmaCeState.exec (state : RmaCeState n) (self : Fin n) : RmaCeOp n → Option (RmaCeState n)
  | .stage ctx index value =>
    some (update state self
      { state self with signalOpSeqsDev := (state self).signalOpSeqsDev.set ctx index value })
  | .writeSignal ctx index peer slot =>
    some (update state peer
      { state peer with signalsDev := (state peer).signalsDev.set ctx slot ((state self).signalOpSeqsDev ctx index) })
  | .waitSignal ctx slot value => if cuWaitValueGeq ((state self).signalsDev ctx slot) value then some state else none

/-- The stream of a rank executes its next operation. -/
def rmaCeStep (programs : Fin n → List (RmaLaunch n)) (state : RmaCeState n) (self : Fin n) : Option (RmaCeState n) := do
  let op ← (rmaCeStream self (programs self))[(state self).pc]?
  let next ← state.exec self op
  return update next self { next self with pc := (next self).pc + 1 }

def rmaCeRun (programs : Fin n → List (RmaLaunch n)) (ranks : List (Fin n)) : Option (RmaCeState n) :=
  ranks.foldlM (rmaCeStep programs) fun _ => .initial

end NcclCore
