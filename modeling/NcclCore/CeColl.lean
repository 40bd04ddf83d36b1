import NcclCore.Bitops

/-! The copy-engine collectives of one LSA team (`ce_coll.cc`). A collective puts
barriers and memory copies on the stream of its rank: a barrier, one batch of
copies that `ncclCeLaunchBatchOps` may cut into chunks, and a barrier. Addresses
are those of a rank's own memory; a peer's memory is reached through the window
of the receive buffer. -/
namespace NcclCore

/-- `CE_COLL_INTRA_BATCH_SYNC_FREQ`. -/
def intraBatchSyncFreq : Nat := 8

/-- `CE_COLL_INTRA_BATCH_SYNC_MSG_THRESHOLD`. -/
def intraBatchSyncMsgThreshold : Nat := 512 * 1024 * 1024

/-- Where a copy writes: in the memory of one rank, or through a multicast
pointer on every rank of the team. -/
inductive CePtr (n : Nat) where
  | lsa (rank : Fin n) (addr : Nat)
  | multicast (addr : Fin n → Nat)

/-- Pointer arithmetic on a destination. -/
def CePtr.add (ptr : CePtr n) (offset : Nat) : CePtr n :=
  match ptr with
  | .lsa rank addr => .lsa rank (addr + offset)
  | .multicast addr => .multicast fun rank => addr rank + offset

/-- `ncclDevrGetLsaRankPtr`: the same offset of the window on another rank. -/
def ncclDevrGetLsaRankPtr (win : Fin n → Nat) (offset : Nat) (lsaRank : Fin n) : CePtr n :=
  .lsa lsaRank (win lsaRank + offset)

/-- `ncclDevrGetLsaTeamPtrMC`: the same offset of the window on all ranks. -/
def ncclDevrGetLsaTeamPtrMC (win : Fin n → Nat) (offset : Nat) : CePtr n :=
  .multicast fun lsaRank => win lsaRank + offset

/-- One entry of the arrays `srcs`, `dsts` and `sizes`. -/
structure CeBatchOp (n : Nat) where
  src : Nat
  dst : CePtr n
  size : Nat

/-- The part of a copy that starts at `offset`. -/
def CeBatchOp.chunk (op : CeBatchOp n) (offset bytes : Nat) : CeBatchOp n where
  src := op.src + offset
  dst := op.dst.add offset
  size := bytes

/-- `ncclCeBatchOpsParams`. -/
structure CeBatchOpsParams (n : Nat) where
  ops : List (CeBatchOp n)
  chunking : Bool
  intraBatchSync : Bool

/-- What a rank puts on its stream. The copies of one `cudaMemcpyBatchAsync` are
not ordered among each other. -/
inductive CeAction (n : Nat) where
  | sync
  | memcpy (batch : List (CeBatchOp n))

/-- What the launch reads besides the batch: the compiled and the installed CUDA
version, `NCCL_CE_CHUNK_SIZE`, whether the launch is captured and whether the
stream is the legacy null stream. -/
structure CeLaunchEnv where
  cudartVersion : Nat
  driverVersion : Nat
  chunkSizeParam : Int
  capturing : Bool
  isLegacyStream : Bool

def CeLaunchEnv.ceChunkSize (env : CeLaunchEnv) : Nat := env.chunkSizeParam.toNat

/-- The largest copy of a batch. -/
def maxSize (ops : List (CeBatchOp n)) : Nat := ops.foldl (fun size op => max size op.size) 0

/-- The chunk of a copy that starts at `offset`, if the copy reaches so far. -/
def CeBatchOp.chunkAt (op : CeBatchOp n) (chunkSize offset : Nat) : Option (CeBatchOp n) :=
  if op.size ≤ offset then none else some (op.chunk offset (min (op.size - offset) chunkSize))

/-- A batch is launched only when it has copies. -/
def launchWave (wave : List (CeBatchOp n)) : List (CeAction n) :=
  if wave.isEmpty then [] else [.memcpy wave]

/-- `ncclCeLaunchChunkedMemcpyBatchAsync`: one batch for each round, with the next
chunk of every copy that is not finished. -/
def ncclCeLaunchChunkedMemcpyBatchAsync (ops : List (CeBatchOp n)) (chunkSize : Nat) : List (CeAction n) :=
  let numRounds := if maxSize ops = 0 then 0 else 1 + (maxSize ops - 1) / chunkSize
  (List.range numRounds).flatMap fun round => launchWave (ops.filterMap (·.chunkAt chunkSize (round * chunkSize)))

/-- The rotated rounds of a batch with intra-batch synchronisation, which go out
as one batch. The division by the chunk size traps when there are more copies
than bytes in the threshold. -/
def rotatedRounds (ops : List (CeBatchOp n)) : Option (List (CeAction n)) :=
  let chunkSize := intraBatchSyncMsgThreshold / ops.length
  if chunkSize = 0 then none
  else
    let numRounds := (maxSize ops + chunkSize - 1) / chunkSize
    some (launchWave ((List.range numRounds).flatMap fun round => (List.range ops.length).filterMap fun i =>
      ops[(i + round) % ops.length]?.bind (·.chunkAt chunkSize (round * chunkSize))))

/-- The loop of single copies, with a barrier after every `intraBatchSyncFreq`
of them but not behind the last. -/
def copyOneByOne (params : CeBatchOpsParams n) : List (CeAction n) :=
  params.ops.zipIdx.flatMap fun (op, i) =>
    .memcpy [op] ::
      (if params.intraBatchSync && (i + 1) % intraBatchSyncFreq == 0 && i + 1 < params.ops.length then [.sync] else [])

/-- The barrier that makes the number of barriers in the batch even. -/
def evenSync (params : CeBatchOpsParams n) : List (CeAction n) :=
  if params.intraBatchSync && (params.ops.length + intraBatchSyncFreq - 1) / intraBatchSyncFreq % 2 == 0 then [.sync]
  else []

/-- `ncclCeLaunchBatchOps`. -/
def ncclCeLaunchBatchOps (env : CeLaunchEnv) (params : CeBatchOpsParams n) : Option (List (CeAction n)) :=
  if params.ops.isEmpty then some []
  else if env.capturing || env.isLegacyStream then some (copyOneByOne params ++ evenSync params)
  else if 12080 ≤ env.cudartVersion ∧ 12080 ≤ env.driverVersion then
    if params.chunking && 0 < env.ceChunkSize then
      some (ncclCeLaunchChunkedMemcpyBatchAsync params.ops env.ceChunkSize)
    else if params.intraBatchSync then rotatedRounds params.ops
    else some [.memcpy params.ops]
  else some (copyOneByOne params)

/-- The arguments of a collective on one rank, with the start of the receive
window on every rank. -/
structure CeCollArgs (n : Nat) where
  rootLsaRank : Fin n
  nElts : Nat
  eltSize : Nat
  sendBuff : Nat
  recvBuff : Nat
  recvWin : Fin n → Nat

def CeCollArgs.chunkBytes (args : CeCollArgs n) : Nat := args.nElts * args.eltSize

/-- What decides between multicast and unicast: `hasLsaMultimem`, the threshold of
the user and the answer of the cost model, if it gives one. -/
structure CeMulticast where
  hasLsaMultimem : Bool
  agMulticastThreshold : Int
  ncclTuningCompute : (perRankBytes : Nat) → (captured inPlace : Bool) → Option Bool

def ncclAllGatherIsInPlace (sendBuff recvBuff rank perRankBytes : Nat) : Bool :=
  sendBuff == recvBuff + rank * perRankBytes

/-- `ncclCeAllGatherUseMulticast`. -/
def ncclCeAllGatherUseMulticast (comm : CeMulticast) (perRankBytes : Nat) (captured inPlace : Bool) : Bool :=
  if !comm.hasLsaMultimem then false
  else if 0 ≤ comm.agMulticastThreshold then (perRankBytes : Int) ≤ comm.agMulticastThreshold
  else (comm.ncclTuningCompute perRankBytes captured inPlace).getD false

/-- The rank `r` behind this one around the team. -/
def lsaPeer (self : Fin n) (r : Nat) : Fin n := ⟨(self.val + r) % n, Nat.mod_lt _ self.pos⟩

/-- The last arguments of the batch of a unicast collective. -/
def asksIntraBatchSync (chunkBytes numOps : Nat) : Bool :=
  intraBatchSyncFreq < numOps && intraBatchSyncMsgThreshold ≤ chunkBytes * numOps

/-- The batch of `ncclCeAllGather`. -/
def allGatherBatch (comm : CeMulticast) (capturing : Bool) (self : Fin n) (args : CeCollArgs n) :
    CeBatchOpsParams n :=
  let chunkBytes := args.chunkBytes
  let mySendBuff := args.sendBuff
  let myRecvBuff := args.recvBuff + self * chunkBytes
  let offset := myRecvBuff - args.recvWin self
  if ncclCeAllGatherUseMulticast comm chunkBytes capturing
      (ncclAllGatherIsInPlace args.sendBuff args.recvBuff self chunkBytes) then
    { ops := [⟨mySendBuff, ncclDevrGetLsaTeamPtrMC args.recvWin offset, chunkBytes⟩]
      chunking := false, intraBatchSync := false }
  else
    let own := if myRecvBuff ≠ mySendBuff then [⟨mySendBuff, .lsa self myRecvBuff, chunkBytes⟩] else []
    let others := (List.range (n - 1)).map fun r =>
      ⟨mySendBuff, ncclDevrGetLsaRankPtr args.recvWin offset (lsaPeer self (r + 1)), chunkBytes⟩
    { ops := own ++ others
      chunking := false
      intraBatchSync := asksIntraBatchSync chunkBytes (own ++ others).length }

/-- The batch of `ncclCeAlltoAll`. -/
def alltoAllBatch (self : Fin n) (args : CeCollArgs n) : CeBatchOpsParams n :=
  let chunkBytes := args.chunkBytes
  let dstPtr := args.recvBuff + self * chunkBytes
  let ops := (List.range n).map fun r =>
    let dstRank := lsaPeer self r
    let srcPtr := args.sendBuff + dstRank * chunkBytes
    if dstRank = self then ⟨srcPtr, .lsa self dstPtr, chunkBytes⟩
    else ⟨srcPtr, ncclDevrGetLsaRankPtr args.recvWin (dstPtr - args.recvWin self) dstRank, chunkBytes⟩
  { ops, chunking := false, intraBatchSync := asksIntraBatchSync chunkBytes ops.length }

/-- The batch of `ncclCeScatter`: only the root copies. -/
def scatterBatch (self : Fin n) (args : CeCollArgs n) : CeBatchOpsParams n :=
  let chunkBytes := args.chunkBytes
  let mySendBuff := args.sendBuff
  let myRecvBuff := args.recvBuff
  let ops :=
    if self = args.rootLsaRank then
      let isInPlace := myRecvBuff == mySendBuff + self * chunkBytes
      let own := if !isInPlace then [⟨mySendBuff + self * chunkBytes, .lsa self myRecvBuff, chunkBytes⟩] else []
      own ++ (List.range (n - 1)).map fun r =>
        let dstRank := lsaPeer self (r + 1)
        let dstPtr := if isInPlace then myRecvBuff + dstRank * chunkBytes else myRecvBuff
        ⟨mySendBuff + dstRank * chunkBytes,
          ncclDevrGetLsaRankPtr args.recvWin (dstPtr - args.recvWin self) dstRank, chunkBytes⟩
    else []
  { ops, chunking := false, intraBatchSync := false }

/-- The batch of `ncclCeGather`: one copy on every rank. -/
def gatherBatch (self : Fin n) (args : CeCollArgs n) : CeBatchOpsParams n :=
  let chunkBytes := args.chunkBytes
  let dstPtr := args.recvBuff + self * chunkBytes
  let ops :=
    if self = args.rootLsaRank then
      if args.sendBuff ≠ dstPtr then [⟨args.sendBuff, .lsa self dstPtr, chunkBytes⟩] else []
    else [⟨args.sendBuff, ncclDevrGetLsaRankPtr args.recvWin (dstPtr - args.recvWin self) args.rootLsaRank, chunkBytes⟩]
  { ops, chunking := false, intraBatchSync := false }

inductive CeFunc where
  | allGather
  | alltoAll
  | scatter
  | gather
  deriving DecidableEq

/-- The batch of a collective. -/
def ceBatch (func : CeFunc) (comm : CeMulticast) (capturing : Bool) (self : Fin n) (args : CeCollArgs n) :
    CeBatchOpsParams n :=
  match func with
  | .allGather => allGatherBatch comm capturing self args
  | .alltoAll => alltoAllBatch self args
  | .scatter => scatterBatch self args
  | .gather => gatherBatch self args

/-- What `ncclCeAllGather`, `ncclCeAlltoAll`, `ncclCeScatter` and `ncclCeGather`
put on the stream. -/
def ncclCeColl (func : CeFunc) (comm : CeMulticast) (env : CeLaunchEnv) (self : Fin n) (args : CeCollArgs n) :
    Option (List (CeAction n)) :=
  (ncclCeLaunchBatchOps env (ceBatch func comm env.capturing self args)).map fun batch => .sync :: batch ++ [.sync]

/-- One collective as all ranks call it: they agree on the function, the count,
the root, the CUDA versions and on whether they are capturing. -/
structure CeCall (n : Nat) where
  func : CeFunc
  rootLsaRank : Fin n
  nElts : Nat
  eltSize : Nat
  cudartVersion : Nat
  driverVersion : Nat
  capturing : Bool
  chunkSizeParam : Int
  comm : Fin n → CeMulticast
  isLegacyStream : Fin n → Bool
  sendBuff : Fin n → Nat
  recvBuff : Fin n → Nat
  recvWin : Fin n → Nat

namespace CeCall
variable {n : Nat} (call : CeCall n)

def args (rank : Fin n) : CeCollArgs n where
  rootLsaRank := call.rootLsaRank
  nElts := call.nElts
  eltSize := call.eltSize
  sendBuff := call.sendBuff rank
  recvBuff := call.recvBuff rank
  recvWin := call.recvWin

def env (rank : Fin n) : CeLaunchEnv where
  cudartVersion := call.cudartVersion
  driverVersion := call.driverVersion
  chunkSizeParam := call.chunkSizeParam
  capturing := call.capturing
  isLegacyStream := call.isLegacyStream rank

def chunkBytes : Nat := call.nElts * call.eltSize

variable (rank : Fin n)

@[simp] theorem args_chunkBytes : (call.args rank).chunkBytes = call.chunkBytes := rfl
@[simp] theorem args_sendBuff : (call.args rank).sendBuff = call.sendBuff rank := rfl
@[simp] theorem args_recvBuff : (call.args rank).recvBuff = call.recvBuff rank := rfl
@[simp] theorem args_recvWin : (call.args rank).recvWin = call.recvWin := rfl
@[simp] theorem args_rootLsaRank : (call.args rank).rootLsaRank = call.rootLsaRank := rfl

def batch : CeBatchOpsParams n :=
  ceBatch call.func (call.comm rank) call.capturing rank (call.args rank)

/-- What the rank puts on its stream. -/
def actions : Option (List (CeAction n)) :=
  ncclCeColl call.func (call.comm rank) (call.env rank) rank (call.args rank)

end NcclCore.CeCall
