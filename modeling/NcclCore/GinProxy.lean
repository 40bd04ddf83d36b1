import NcclCore.Lib.BitFields

/-! The queues of the GIN proxy (`nccl_device/gin/proxy/gin_proxy.h` and
`gin/gin_host_proxy.cc`). Threads of the device post descriptors to the queue of a
peer, and one thread of the host hands them to the backend. Each word of a descriptor
is stored and read on its own, and its lowest bit says that it is there. -/
namespace NcclCore
open Function
open Lib (BitField)

/-- `ncclGinProxyGfd_t`, the words of a descriptor. -/
abbrev GinProxyGfd := Fin 16 → BitVec 64

/-- A field of a descriptor: its word and its bits there. -/
structure GinProxyField extends BitField where
  word : Fin 16

namespace GinProxyGfd

/-! ### The fields (`ncclGinProxyQword_t`) -/

def flag : BitField := ⟨0, 1⟩
def version : GinProxyField := ⟨⟨1, 4⟩, 0⟩
def size : GinProxyField := ⟨⟨7, 57⟩, 0⟩
def inlineValLow : GinProxyField := ⟨⟨8, 32⟩, 1⟩
def inlineValLow2 : GinProxyField := ⟨⟨40, 16⟩, 1⟩
def inlineValHigh : GinProxyField := ⟨⟨8, 16⟩, 2⟩
def srcOff : GinProxyField := ⟨⟨1, 63⟩, 1⟩
def srcHandle : GinProxyField := ⟨⟨1, 63⟩, 2⟩
def vaSignalOff : GinProxyField := ⟨⟨1, 63⟩, 1⟩
def vaSignalHandle : GinProxyField := ⟨⟨1, 63⟩, 2⟩
def dstOff : GinProxyField := ⟨⟨1, 63⟩, 3⟩
def dstHandle : GinProxyField := ⟨⟨1, 63⟩, 4⟩
def counterId : GinProxyField := ⟨⟨1, 23⟩, 5⟩
def signalId : GinProxyField := ⟨⟨24, 24⟩, 5⟩
def signalValLow : GinProxyField := ⟨⟨48, 16⟩, 5⟩
def isStrongSignal : GinProxyField := ⟨⟨1, 1⟩, 6⟩
def signalValLow2 : GinProxyField := ⟨⟨8, 16⟩, 6⟩
def signalValHigh : GinProxyField := ⟨⟨24, 32⟩, 6⟩
def op : GinProxyField := ⟨⟨8, 16⟩, 7⟩

def get (gfd : GinProxyGfd) (field : GinProxyField) : BitVec 64 := field.toBitField.get (gfd field.word)

def set (gfd : GinProxyGfd) (field : GinProxyField) (value : BitVec 64) : GinProxyGfd :=
  update gfd field.word (field.toBitField.set value (gfd field.word))

end GinProxyGfd

/-! ### Operations (`ncclGinProxyOp_t`) -/

abbrev GinProxyOp := BitVec 16

namespace GinProxyOp

def put : GinProxyOp := 1 <<< 0
def baseMask : GinProxyOp := 1 <<< 0
def withInline : GinProxyOp := 1 <<< 1
def withCounter : GinProxyOp := 1 <<< 2
def withSignalInc : GinProxyOp := 1 <<< 3
def withSignalAdd : GinProxyOp := 1 <<< 4
def vaSignal : GinProxyOp := 1 <<< 5
def get : GinProxyOp := 1 <<< 6
def flush : GinProxyOp := 1 <<< 7

/-- `op & flags` as a condition. -/
def has (op flags : GinProxyOp) : Bool := op &&& flags ≠ 0

end GinProxyOp

/-- `ncclGinSignalType`. -/
inductive GinSignalType where
  | none
  | indexed
  | va
  deriving DecidableEq

/-- `ncclGinSignalOp_t`. -/
inductive GinSignalOp where
  | inc
  | add
  deriving DecidableEq

def constructProxyOp (isGet isFlush hasInline : Bool) (signalType : GinSignalType) (signalOp : GinSignalOp)
    (hasCounter : Bool) : GinProxyOp :=
  if isGet then .get
  else if isFlush then .flush
  else
    let signal : GinProxyOp :=
      if signalType = .none then 0
      else match signalOp with
        | .inc => .withSignalInc
        | .add => .withSignalAdd
    if signalType = .va then signal ||| .vaSignal
    else signal ||| .put ||| (if hasInline then .withInline else 0) ||| (if hasCounter then .withCounter else 0)

/-- The arguments of `buildGfd`. The inline value is given by its bits and `sizeof(T)`; for
what a call has nothing to say of it passes zero, an `int` as the inline value. -/
structure BuildGfdArgs where
  op : GinProxyOp
  srcValBits : BitVec 64 := 0
  sizeofT : Nat := 4
  hasInline : Bool := false
  srcOff : BitVec 64 := 0
  srcHandle : BitVec 64 := 0
  dstOff : BitVec 64 := 0
  dstHandle : BitVec 64 := 0
  size : BitVec 64 := 0
  counterId : BitVec 32 := 0
  signalId : BitVec 32 := 0
  signalVal : BitVec 64 := 0
  signalWindow : BitVec 64 := 0
  signalOff : BitVec 64 := 0
  isStrongSignal : Bool := false

section
open GinProxyGfd

/-- Behind the header of a descriptor: where the data or the signal is. -/
def buildSource (args : BuildGfdArgs) (gfd : GinProxyGfd) : GinProxyGfd :=
  if args.hasInline then
    let gfd := gfd.set inlineValLow args.srcValBits
    let gfd := if args.sizeofT > 4 then gfd.set inlineValLow2 (args.srcValBits >>> 32) else gfd
    if args.sizeofT > 6 then gfd.set inlineValHigh (args.srcValBits >>> 48) else gfd
  else if args.op.has .vaSignal then
    (gfd.set vaSignalOff args.signalOff).set vaSignalHandle args.signalWindow
  else (gfd.set srcOff args.srcOff).set srcHandle args.srcHandle

/-- The destination, the counter and the signal. -/
def buildTarget (args : BuildGfdArgs) (gfd : GinProxyGfd) : GinProxyGfd :=
  let gfd := (gfd.set dstOff args.dstOff).set dstHandle args.dstHandle
  let gfd := (gfd.set counterId (args.counterId.setWidth 64)).set signalId (args.signalId.setWidth 64)
  let gfd := gfd.set signalValLow args.signalVal
  let gfd := gfd.set signalValLow2 (args.signalVal >>> 16)
  let gfd := gfd.set signalValHigh (args.signalVal >>> 32)
  gfd.set isStrongSignal (if args.isStrongSignal then 1 else 0)

/-- The words with their flags, and the header. -/
def buildHeader (args : BuildGfdArgs) (gfd : GinProxyGfd) : GinProxyGfd :=
  let gfd : GinProxyGfd := fun k => flag.set 1 (gfd k)
  ((gfd.set version 2).set size args.size).set op (args.op.setWidth 64)

/-- `buildGfd` on the memory `gfd`, which keeps the bits that are not assigned. -/
def buildGfd (gfd : GinProxyGfd) (args : BuildGfdArgs) : GinProxyGfd :=
  if args.op.has .flush then buildHeader args gfd else buildTarget args (buildSource args (buildHeader args gfd))

end

/-- The source of a put: a part of a window, or a value of `sizeofT` bytes. -/
inductive GinProxySource where
  | window (srcOff srcHandle : BitVec 63) (bytes : BitVec 57)
  | value (bits : BitVec 64) (sizeofT : Nat) (small : sizeofT ≤ 8) (fits : bits.toNat < 2 ^ (8 * sizeofT))

namespace GinProxySource

def hasInline : GinProxySource → Bool
  | window .. => false
  | value .. => true

def srcValBits : GinProxySource → BitVec 64
  | window .. => 0
  | value bits .. => bits

def sizeofT : GinProxySource → Nat
  | window .. => 8
  | value _ sizeofT .. => sizeofT

def srcOff : GinProxySource → BitVec 64
  | window srcOff .. => srcOff.setWidth 64
  | value .. => 0

def srcHandle : GinProxySource → BitVec 64
  | window _ srcHandle _ => srcHandle.setWidth 64
  | value .. => 0

def size : GinProxySource → BitVec 64
  | window _ _ bytes => bytes.setWidth 64
  | value _ sizeofT .. => BitVec.ofNat 64 sizeofT

end GinProxySource

/-- A signal of the peer by its index. -/
structure GinIndexedSignal where
  signalId : BitVec 24
  signalOp : GinSignalOp
  signalVal : BitVec 64

/-- What `put`, `get` and `wait` of the device post, each with the values that it is given. -/
inductive GinProxyCall where
  | put (source : GinProxySource) (dstOff dstHandle : BitVec 63) (signal : Option GinIndexedSignal)
      (counterId : Option (BitVec 23)) (isStrong : Bool)
  | vaSignal (signalWindow signalOff : BitVec 63) (signalOp : GinSignalOp) (signalVal : BitVec 64) (isStrong : Bool)
  | get (srcOff srcHandle dstOff dstHandle : BitVec 63) (bytes : BitVec 57)
  | flush

namespace GinProxyCall

/-- The counter that is to be raised on completion. -/
def counter : GinProxyCall → Option (BitVec 23)
  | put _ _ _ _ counterId _ => counterId
  | _ => none

/-- The arguments that the call passes to `constructProxyOp` and `buildGfd`. -/
def args : GinProxyCall → BuildGfdArgs
  | put source dstOff dstHandle signal counterId isStrong =>
    { op := constructProxyOp false false source.hasInline (if signal.isSome then .indexed else .none)
        ((signal.map (·.signalOp)).getD .inc) counterId.isSome
      srcValBits := source.srcValBits
      sizeofT := source.sizeofT
      hasInline := source.hasInline
      srcOff := source.srcOff
      srcHandle := source.srcHandle
      dstOff := dstOff.setWidth 64
      dstHandle := dstHandle.setWidth 64
      size := source.size
      counterId := (counterId.getD 0).setWidth 32
      signalId := ((signal.map GinIndexedSignal.signalId).getD 0).setWidth 32
      signalVal := (signal.map (·.signalVal)).getD 0
      isStrongSignal := isStrong }
  | vaSignal signalWindow signalOff signalOp signalVal isStrong =>
    { op := constructProxyOp false false false .va signalOp false
      signalVal
      signalWindow := signalWindow.setWidth 64
      signalOff := signalOff.setWidth 64
      isStrongSignal := isStrong }
  | get srcOff srcHandle dstOff dstHandle bytes =>
    { op := constructProxyOp true false false .none .inc false
      srcOff := srcOff.setWidth 64
      srcHandle := srcHandle.setWidth 64
      dstOff := dstOff.setWidth 64
      dstHandle := dstHandle.setWidth 64
      size := bytes.setWidth 64 }
  | flush => { op := constructProxyOp false true false .none .inc false }

end GinProxyCall

/-! ### Requests -/

/-- `ginProxyCtx` with the number of threads that post. The queue size is a power of two
and fits in 32 bits. -/
structure GinProxyConfig where
  nContexts : Nat
  nRanks : Nat
  nThreads : Nat
  contexts_pos : 0 < nContexts
  ranks_pos : 0 < nRanks
  logQueueSize : Nat
  logQueueSize_lt : logQueueSize < 32
  nCountersPerContext : Nat
  nSignalsPerContext : Nat
  pollBatch : Nat
  signalsGinHandle : BitVec 64
  inlinesMhandle : Nat → BitVec 64

section
variable (config : GinProxyConfig)

/-- The queue of a context and a target rank. -/
abbrev GinProxyConfig.QueueId := Fin config.nContexts × Fin config.nRanks

def GinProxyConfig.queueSize : Nat := 2 ^ config.logQueueSize

/-- `idx & (queueSize - 1)`. -/
def GinProxyConfig.slotOf (idx : Nat) : Nat := idx &&& (config.queueSize - 1)

end

/-- The calls of the backend. A flag says that more requests follow. -/
inductive GinProxyRequest where
  | iput (context : Nat) (srcOff srcHandle size dstOff dstHandle : BitVec 64) (rank : Nat) (aggregate : Bool)
  | iputSignal (context : Nat) (srcOff srcHandle size dstOff dstHandle : BitVec 64) (rank : Nat)
      (signalOff signalHandle signalVal : BitVec 64) (signalOp : Option GinSignalOp) (isStrong aggregate : Bool)
  | iget (context : Nat) (srcOff srcHandle size dstOff dstHandle : BitVec 64) (rank : Nat) (aggregate : Bool)
  | iflush (context : Nat) (signalsGinHandle : BitVec 64) (rank : Nat)

def GinProxyRequest.isFlush : GinProxyRequest → Bool
  | iflush .. => true
  | _ => false

namespace GinProxyGfd
section
variable (gfd : GinProxyGfd)

def extractSignalVal : BitVec 64 :=
  gfd.get signalValLow ||| gfd.get signalValLow2 <<< 16 |||
    gfd.get signalValHigh <<< 32

def extractOp : GinProxyOp := (gfd.get op).setWidth 16

def extractIsStrongSignal : Bool :=
  if (gfd.get version).toNat < 2 then true else gfd.get isStrongSignal ≠ 0

def mapGfdOpToSignalOp : Option GinSignalOp :=
  let signalOp := gfd.extractOp &&& (.withSignalInc ||| .withSignalAdd)
  if signalOp = .withSignalInc then some .inc
  else if signalOp = .withSignalAdd then some .add
  else none

/-- The inline value, put together from two words. -/
def inlineVal : BitVec 64 :=
  gfd.get inlineValLow |||
    (if (gfd.get size).toNat > 4 then gfd.get inlineValLow2 <<< 32 else 0) |||
    (if (gfd.get size).toNat > 6 then gfd.get inlineValHigh <<< 48 else 0)

/-- Whether the source is the inline value: the last branch of `proxyGinProcessGfd`. -/
def isInline : Bool :=
  !gfd.extractOp.has .vaSignal && !gfd.extractOp.has .get && !gfd.extractOp.has .flush && gfd.extractOp.has .withInline

end

/-- `proxyGinProcessGfd`: the request for a descriptor in the slot `slot` of its queue.
There is none for an unexpected operation. -/
def request (config : GinProxyConfig) (queue : config.QueueId) (slot : Nat) (aggregate : Bool) (gfd : GinProxyGfd) :
    Option GinProxyRequest :=
  let context := queue.1.val
  let rank := queue.2.val
  if gfd.extractOp.has .vaSignal then
    some (.iputSignal context 0 0 0 0 0 rank (gfd.get vaSignalOff) (gfd.get vaSignalHandle)
      gfd.extractSignalVal gfd.mapGfdOpToSignalOp gfd.extractIsStrongSignal aggregate)
  else if gfd.extractOp.has .get then
    some (.iget context (gfd.get srcOff) (gfd.get srcHandle) (gfd.get size)
      (gfd.get dstOff) (gfd.get dstHandle) rank aggregate)
  else if gfd.extractOp.has .flush then
    some (.iflush context config.signalsGinHandle rank)
  else
    let inlined := gfd.extractOp.has .withInline
    let off := if inlined then BitVec.ofNat 64 (8 * (rank * config.queueSize + slot)) else gfd.get srcOff
    let handle := if inlined then config.inlinesMhandle context else gfd.get srcHandle
    let size := gfd.get size
    let dstOff := gfd.get dstOff
    let dstHandle := gfd.get dstHandle
    if gfd.extractOp &&& .baseMask = .put then
      match gfd.mapGfdOpToSignalOp with
      | none => some (.iput context off handle size dstOff dstHandle rank aggregate)
      | some signalOp =>
        let signalOff := BitVec.ofNat 64 (((gfd.get signalId).toNat + context * config.nSignalsPerContext) * 8)
        some (.iputSignal context off handle size dstOff dstHandle rank signalOff config.signalsGinHandle
          gfd.extractSignalVal (some signalOp) gfd.extractIsStrongSignal aggregate)
    else none

end GinProxyGfd

/-! ### Queues -/

/-- `ginProxyGfdState`. -/
structure GinProxyGfdState where
  op : GinProxyOp
  counterId : BitVec 16
  done : Bool

/-- What has happened on a queue, with indices that do not wrap. -/
structure GinProxyLog where
  /-- The calls in the order of their indices, with their descriptors. -/
  posted : List (GinProxyCall × GinProxyGfd)
  /-- The words of each descriptor that are stored. -/
  stored : Nat → Finset (Fin 16)
  /-- How many descriptors were read, and how many were consumed. -/
  seen : Nat
  consumed : Nat
  /-- The descriptors that are completed. -/
  completed : Finset Nat
  /-- The requests to the backend. -/
  submitted : List GinProxyRequest

/-- A queue: its memory, the indices on both sides and the host's states. -/
structure GinProxyQueue where
  gfds : Nat → GinProxyGfd
  pi : Nat
  ci : Nat
  cisShadow : Nat
  si : Nat
  states : Nat → GinProxyGfdState
  inlines : Nat → BitVec 64
  log : GinProxyLog

/-- `ncclGinProxyCreateContext`: all memory is zeroed. -/
def GinProxyQueue.init : GinProxyQueue where
  gfds _ _ := 0
  pi := 0
  ci := 0
  cisShadow := 0
  si := 0
  states _ := ⟨0, 0, false⟩
  inlines _ := 0
  log := ⟨[], fun _ => ∅, 0, 0, ∅, []⟩

/-- A thread of the device in `postGfd`. The number `place` is its index without the wrap. -/
inductive GinProxyProducer (config : GinProxyConfig) where
  | idle
  | waiting (queue : config.QueueId) (place idx : Nat) (gfd : GinProxyGfd)
  | storing (queue : config.QueueId) (place gfdIdx : Nat) (gfd : GinProxyGfd) (stored : Finset (Fin 16))

/-- Where the host is in `ncclGinProxyProgress`. -/
inductive GinProxyPc (config : GinProxyConfig) where
  /-- In the loop of `proxyGinPollCompletions`. -/
  | completions (queue : config.QueueId) (i : Nat)
  /-- Before the poll `p` of a batch. -/
  | poll (queue : config.QueueId) (p : Nat)
  /-- Before the word `k` is there. -/
  | reading (queue : config.QueueId) (p k : Nat) (gfd : GinProxyGfd)
  /-- Before the word `k` is reset. -/
  | clearing (queue : config.QueueId) (p k : Nat) (gfd : GinProxyGfd)
  /-- Before `proxyGinProcessGfd`. -/
  | process (queue : config.QueueId) (p : Nat) (gfd : GinProxyGfd) (idx : Nat)

structure GinProxyState (config : GinProxyConfig) where
  queues : config.QueueId → GinProxyQueue
  counters : Nat → Nat
  producers : Fin config.nThreads → GinProxyProducer config
  pc : GinProxyPc config

/-- A step of a thread, or of the host. The answer is what the backend says: whether a
request is done, or that there is nothing to wait for. -/
inductive GinProxyEvent (config : GinProxyConfig) where
  /-- A thread builds a descriptor in some memory and takes an index. -/
  | claim (thread : Fin config.nThreads) (queue : config.QueueId) (call : GinProxyCall) (memory : GinProxyGfd)
  /-- A thread finds credits. -/
  | credit (thread : Fin config.nThreads)
  /-- The store of a word. -/
  | store (thread : Fin config.nThreads) (word : Fin 16)
  | host (answer : Bool)

namespace GinProxyQueue
variable (config : GinProxyConfig)

section
variable (queue : GinProxyQueue)

/-- `pi.fetch_add` -/
def claim (call : GinProxyCall) (gfd : GinProxyGfd) : GinProxyQueue :=
  { queue with
    pi := (queue.pi + 1) % 2 ^ 32
    log := { queue.log with posted := queue.log.posted ++ [(call, gfd)] } }

def store (place gfdIdx : Nat) (gfd : GinProxyGfd) (word : Fin 16) : GinProxyQueue :=
  { queue with
    gfds := update queue.gfds gfdIdx (update (queue.gfds gfdIdx) word (gfd word))
    log := { queue.log with stored := update queue.log.stored place (insert word (queue.log.stored place)) } }

def isGfdAvailable : Bool := GinProxyGfd.flag.get (queue.gfds (config.slotOf queue.si) 0) ≠ 0

/-- The descriptor at the index `i` is tested if it is not done yet. -/
def test (i : Nat) (answer : Bool) : GinProxyQueue :=
  let idx := config.slotOf i
  let state := queue.states idx
  if !state.done && answer then
    { queue with
      states := update queue.states idx { state with done := true }
      log := { queue.log with
        completed := insert (queue.log.consumed + (i + 2 ^ 32 - queue.cisShadow) % 2 ^ 32) queue.log.completed } }
  else queue

/-- A descriptor that is done at the consumed index is consumed. -/
def consume (i : Nat) : GinProxyQueue :=
  if (queue.states (config.slotOf i)).done ∧ i = queue.cisShadow then
    { queue with
      cisShadow := (queue.cisShadow + 1) % 2 ^ 32
      ci := (queue.cisShadow + 1) % 2 ^ 32
      log := { queue.log with consumed := queue.log.consumed + 1 } }
  else queue

/-- The counter that an iteration of `proxyGinPollCompletions` raises. -/
def raised (i : Nat) (answer : Bool) : Option Nat :=
  let state := queue.states (config.slotOf i)
  if !state.done && answer && state.op.has .withCounter then some state.counterId.toNat else none

def clear (word : Fin 16) : GinProxyQueue :=
  let idx := config.slotOf queue.si
  { queue with gfds := update queue.gfds idx (update (queue.gfds idx) word 0) }

/-- The end of `proxyGinPollGfd`. -/
def see (gfd : GinProxyGfd) : GinProxyQueue :=
  { queue with
    states := update queue.states (config.slotOf queue.si)
      ⟨gfd.extractOp, (gfd.get GinProxyGfd.counterId).setWidth 16, false⟩
    si := (queue.si + 1) % 2 ^ 32
    log := { queue.log with seen := queue.log.seen + 1 } }

end

/-- `proxyGinProcessGfd` for the descriptor that was seen last. -/
def process (id : config.QueueId) (queue : GinProxyQueue) (gfd : GinProxyGfd) (idx : Nat) (isLastInBatch answer : Bool) :
    GinProxyQueue :=
  let aggregate := queue.isGfdAvailable config && !isLastInBatch
  let request := gfd.request config id idx aggregate
  let inlines := if gfd.isInline then update queue.inlines idx gfd.inlineVal else queue.inlines
  let log := { queue.log with submitted := queue.log.submitted ++ request.toList }
  if request.any GinProxyRequest.isFlush && answer then
    -- the backend has nothing to wait for
    { queue with
      inlines
      states := update queue.states idx { queue.states idx with done := true }
      log := { log with completed := insert (queue.log.seen - 1) queue.log.completed } }
  else { queue with inlines, log }

end GinProxyQueue

namespace GinProxyState
variable {config : GinProxyConfig}

def init (config : GinProxyConfig) : GinProxyState config where
  queues _ := .init
  counters _ := 0
  producers _ := .idle
  pc := .completions (⟨0, config.contexts_pos⟩, ⟨0, config.ranks_pos⟩) 0

variable (state : GinProxyState config)

section
variable (id : config.QueueId)

/-- The start of `proxyGinPollCompletions` for a queue. -/
def pollCompletions : GinProxyPc config :=
  .completions id (state.queues id).cisShadow

/-- Behind `proxyGinPollCompletions` for a queue: the next rank, or the first poll. -/
def afterCompletions : GinProxyPc config :=
  if more : id.2.val + 1 < config.nRanks then state.pollCompletions (id.1, ⟨id.2 + 1, more⟩)
  else .poll (id.1, ⟨0, config.ranks_pos⟩) 0

/-- Behind the last poll of a queue: the next rank, the next context or the next call of
`ncclGinProxyProgress`. -/
def afterPolls : GinProxyPc config :=
  if more : id.2.val + 1 < config.nRanks then .poll (id.1, ⟨id.2 + 1, more⟩) 0
  else if more : id.1.val + 1 < config.nContexts then state.pollCompletions (⟨id.1 + 1, more⟩, ⟨0, config.ranks_pos⟩)
  else state.pollCompletions (⟨0, config.contexts_pos⟩, ⟨0, config.ranks_pos⟩)

def setQueue (queue : GinProxyQueue) : GinProxyState config :=
  { state with queues := update state.queues id queue }

end

/-- A raised counter of a context. -/
def raise (context : Nat) : Option Nat → GinProxyState config
  | none => state
  | some counterId =>
    let idx := context * config.nCountersPerContext + counterId
    { state with counters := update state.counters idx ((state.counters idx + 1) % 2 ^ 64) }

/-- A step of `ncclGinProxyProgress`. -/
def host (answer : Bool) : GinProxyState config :=
  match state.pc with
  | .completions id i =>
    let queue := state.queues id
    if i < queue.si then
      let raised := queue.raised config i answer
      let queue := (queue.test config i answer).consume config i
      { (state.setQueue id queue).raise id.1 raised with pc := .completions id ((i + 1) % 2 ^ 32) }
    else { state with pc := state.afterCompletions id }
  | .poll id p =>
    let queue := state.queues id
    if p < config.pollBatch ∧ queue.isGfdAvailable config then
      { state with pc := .reading id p 1 (fun _ => queue.gfds (config.slotOf queue.si) 0) }
    else { state with pc := state.afterPolls id }
  | .reading id p k gfd =>
    if more : k < 16 then
      let word := (state.queues id).gfds (config.slotOf (state.queues id).si) ⟨k, more⟩
      if GinProxyGfd.flag.get word = 0 then state
      else { state with pc := .reading id p (k + 1) (update gfd ⟨k, more⟩ word) }
    else { state with pc := .clearing id p 0 gfd }
  | .clearing id p k gfd =>
    let queue := state.queues id
    if more : k < 16 then { state.setQueue id (queue.clear config ⟨k, more⟩) with pc := .clearing id p (k + 1) gfd }
    else { state.setQueue id (queue.see config gfd) with pc := .process id p gfd (config.slotOf queue.si) }
  | .process id p gfd idx =>
    let queue := (state.queues id).process config id gfd idx (p + 1 = config.pollBatch) answer
    { state.setQueue id queue with pc := .poll id (p + 1) }

def setProducer (thread : Fin config.nThreads) (producer : GinProxyProducer config) :
    GinProxyState config :=
  { state with producers := update state.producers thread producer }

def step : GinProxyEvent config → Option (GinProxyState config)
  | .claim thread id call memory =>
    match state.producers thread with
    | .idle =>
      if call.counter.all (·.toNat < config.nCountersPerContext) then
        let queue := state.queues id
        let gfd := buildGfd memory call.args
        some ((state.setQueue id (queue.claim call gfd)).setProducer thread
          (.waiting id queue.log.posted.length queue.pi gfd))
      else none
    | _ => none
  | .credit thread =>
    match state.producers thread with
    | .waiting id place idx gfd =>
      if config.queueSize ≤ (idx + 2 ^ 32 - (state.queues id).ci) % 2 ^ 32 then none
      else some (state.setProducer thread (.storing id place (config.slotOf idx) gfd ∅))
    | _ => none
  | .store thread word =>
    match state.producers thread with
    | .storing id place gfdIdx gfd stored =>
      if word ∈ stored then none
      else
        let stored := insert word stored
        some ((state.setQueue id ((state.queues id).store place gfdIdx gfd word)).setProducer thread
          (if stored = Finset.univ then .idle else .storing id place gfdIdx gfd stored))
    | _ => none
  | .host answer => some (state.host answer)

/-- A state that a run reaches. -/
def Reachable : Prop := ∃ events : List (GinProxyEvent config), events.foldlM step (init config) = some state

end NcclCore.GinProxyState
