import NcclCore.McArena
import NcclCore.Lib.Gathers

/-! `nvls_ub.cc`: the local ranks resolve multicast addresses for the buffers of a
collective. In a round they gather what each knows of the two buffers and settle a plan;
if new ranges are needed they may first gather what they have retired, and free what all
have; then each reserves and binds the ranges, and they gather how that went. Between
rounds a rank may give up a range on its own. -/
namespace NcclCore
open Lib Function

/-- `nvlsUbSend` and `nvlsUbRecv`. -/
inductive UbRole where
  | send
  | recv
  deriving DecidableEq

/-- The roles in the order of the loops. -/
def UbRole.all : List UbRole := [.send, .recv]

inductive UbAction where
  | fallback
  | reuseRange
  | newRange
  deriving DecidableEq

inductive UbRangeState where
  | bound
  | partlyBound
  | unbound
  deriving DecidableEq

/-- `ubSlotEligibility`. -/
structure UbSlotEligibility where
  userOffset : Nat
  reqExtent : Nat
  ucSize : Nat
  arenaOffset : Nat
  eligible : Bool
  committed : Bool

def UbSlotEligibility.zero : UbSlotEligibility := ⟨0, 0, 0, 0, false, false⟩

/-- `ubEligibility`. -/
structure UbEligibility where
  slot : UbRole → UbSlotEligibility
  granularity : Nat
  sendRecvAliased : Bool
  hasNewRetired : Bool
  retiredCount : Nat

/-- `ubBindResult`; no offset for `SIZE_MAX`. -/
structure UbBindResult where
  offset : UbRole → Option Nat
  bound : UbRole → Bool

/-- `ubRoundPlan`. -/
structure UbRoundPlan where
  action : UbRole → UbAction
  bindSize : UbRole → Nat
  rangeOwner : UbRole → UbRole

def UbRoundPlan.zero : UbRoundPlan := ⟨fun _ => .fallback, fun _ => 0, fun _ => .send⟩

/-- What the registration reads of an `ncclReg`. The record of the committed range is
present exactly if the state has `NVLS_REG_COMPLETE`. -/
structure UbReg where
  begAddr : Nat
  endAddr : Nat
  noSupport : Bool
  nvlsUbReg : Option McArenaReg

/-- The arguments of `ncclNvlsUbRegister`: a buffer at 0 is `NULL`, and records are named
by numbers. -/
structure UbArgs where
  buff : UbRole → Nat
  reg : UbRole → Option Nat
  size : UbRole → Nat

/-- A resolved address: the range, and the offset of the buffer within it. -/
structure UbMcAddress where
  range : McArenaReg
  userOffset : Nat
  deriving DecidableEq

def UbMcAddress.address (resolved : UbMcAddress) : Nat := resolved.range.mcBaseAddress + resolved.userOffset

/-- The larger of the granularities. -/
def ubRangeAlignment (arena : McArena) : Nat := max arena.ucGranularity arena.partition.minGranularity

def ubMcAddress (range : McArenaReg) (reg : UbReg) (buff : Nat) : UbMcAddress := ⟨range, buff - reg.begAddr⟩

/-! ### The plan -/

/-- The accumulators of the loop in `ubActionFromEligibility`. -/
structure UbSlotScan where
  allCommitted : Bool
  anyCommitted : Bool
  offsetsAgree : Bool
  bindSize : Nat
  reqExtent : Nat

def UbSlotScan.start : UbSlotScan := ⟨true, false, true, 2 ^ 64 - 1, 0⟩

/-- One pass of the loop; none if it returns. -/
def UbSlotScan.next (rank0Slot : UbSlotEligibility) (scan : UbSlotScan) (slot : UbSlotEligibility) : Option UbSlotScan :=
  if slot.eligible = false then none
  else if slot.userOffset ≠ rank0Slot.userOffset then none
  else some {
    allCommitted := scan.allCommitted && slot.committed
    anyCommitted := scan.anyCommitted || slot.committed
    offsetsAgree := scan.offsetsAgree && (!slot.committed || slot.arenaOffset == rank0Slot.arenaOffset)
    bindSize := min scan.bindSize slot.ucSize
    reqExtent := max scan.reqExtent slot.reqExtent }

/-- `alignDown`. -/
def alignDown (x a : Nat) : Nat := x - x % a

/-- What follows the loop. -/
def UbSlotScan.action (scan : UbSlotScan) (alignment : Nat) : UbAction × Nat :=
  let bindSize := alignDown scan.bindSize alignment
  if bindSize < scan.reqExtent then (.fallback, 0)
  else if scan.allCommitted then (if scan.offsetsAgree then .reuseRange else .fallback, 0)
  else if scan.anyCommitted ∨ bindSize = 0 then (.fallback, 0)
  else (.newRange, bindSize)

variable {n : Nat}

/-- The action of a role, and the size for a new range. -/
def ubActionFromEligibility (allEligibility : Fin (n + 1) → UbEligibility) (role : UbRole) (alignment : Nat) :
    UbAction × Nat :=
  let rank0Slot := (allEligibility 0).slot role
  match (List.ofFn fun rank => (allEligibility rank).slot role).foldlM (UbSlotScan.next rank0Slot) .start with
  | none => (.fallback, 0)
  | some scan => scan.action alignment

/-- The cross-rank maximum of the granularities. -/
def ubAlignment (granularity : Fin (n + 1) → Nat) : Nat := (List.ofFn granularity).foldl max 0

/-- The plan that `ubEligibilityExchange` makes of what was gathered. -/
def ubPlan (allEligibility : Fin (n + 1) → UbEligibility) : UbRoundPlan :=
  let sendRecvAliased := (allEligibility 0).sendRecvAliased
  if ∃ rank, (allEligibility rank).sendRecvAliased ≠ sendRecvAliased then .zero
  else
    let alignment := ubAlignment fun rank => (allEligibility rank).granularity
    let action := fun role => (ubActionFromEligibility allEligibility role alignment).1
    { action
      bindSize := fun role => (ubActionFromEligibility allEligibility role alignment).2
      rangeOwner := fun role =>
        if role = .recv ∧ sendRecvAliased ∧ action .send = .newRange ∧ action .recv = .newRange then .send else role }

def ubTriggerReclaim (allEligibility : Fin (n + 1) → UbEligibility) : Bool :=
  let fewestRetired := (List.ofFn fun rank => (allEligibility rank).retiredCount).foldl min
    (allEligibility 0).retiredCount
  0 < fewestRetired ∧ ∃ rank, (allEligibility rank).hasNewRetired = true

/-! ### What all ranks have retired -/

/-- The pass of the inner loop in `ubReclaimRetiredRanges`, over the ranks that are left.
The cursor of a rank is what is left of its list. None if a list is exhausted; otherwise
whether the candidate is on every rank, and the cursors. -/
def onEveryRank (driverRank : Fin (n + 1)) (cand : McRetiredReg) :
    List (Fin (n + 1)) → (Fin (n + 1) → List McRetiredReg) → Option (Bool × (Fin (n + 1) → List McRetiredReg))
  | [], peerCursor => some (true, peerCursor)
  | rank :: ranks, peerCursor =>
    if rank = driverRank then onEveryRank driverRank cand ranks peerCursor
    else
      match (peerCursor rank).dropWhile (·.offset < cand.offset) with
      | [] => none
      | peer :: rest =>
        let peerCursor := update peerCursor rank (peer :: rest)
        if peer.offset ≠ cand.offset then some (false, peerCursor)
        else if peer.bindSize ≠ cand.bindSize then some (false, peerCursor)
        else onEveryRank driverRank cand ranks peerCursor

/-- The loop over the candidates. -/
def sharedFrom (driverRank : Fin (n + 1)) : List McRetiredReg → (Fin (n + 1) → List McRetiredReg) → List McRetiredReg
  | [], _ => []
  | cand :: cands, peerCursor =>
    match onEveryRank driverRank cand (List.finRange (n + 1)) peerCursor with
    | none => []
    | some (true, peerCursor) => cand :: sharedFrom driverRank cands peerCursor
    | some (false, peerCursor) => sharedFrom driverRank cands peerCursor

/-- The first of the ranks that have retired the fewest ranges. -/
def driverRank (retiredCount : Fin (n + 1) → Nat) : Fin (n + 1) :=
  (List.finRange (n + 1)).foldl (fun driver rank => if retiredCount rank < retiredCount driver then rank else driver) 0

/-- The ranges present in every rank's list. -/
def sharedRetired (retiredCount : Fin (n + 1) → Nat) (allRetired : Fin (n + 1) → List McRetiredReg) :
    List McRetiredReg :=
  let lists := fun rank => (allRetired rank).take (retiredCount rank)
  sharedFrom (driverRank retiredCount) (lists (driverRank retiredCount)) lists

/-! ### The ranks -/

/-- `ubRegState`: one attempt, after the eligibility was gathered. -/
structure UbRegState (n : Nat) where
  args : UbArgs
  mcAddr : UbRole → Option UbMcAddress
  plan : UbRoundPlan
  allEligibility : Fin (n + 1) → UbEligibility

/-- Where a rank is: between rounds, or in an all-gather of a round. -/
inductive UbPhase (n : Nat) where
  | idle
  | eligibility (args : UbArgs)
  | retired (state : UbRegState n) (round : Nat) (myRetired : List McRetiredReg)
      (allRetired : Fin (n + 1) → List McRetiredReg)
  | binds (state : UbRegState n) (newArenaRegs : UbRole → Option McArenaReg)

/-- What is exchanged. -/
inductive UbPayload where
  | eligibility (payload : UbEligibility)
  | retired (chunk : List McRetiredReg)
  | binds (payload : UbBindResult)

/-- Which all-gather. -/
inductive UbGather where
  | eligibility
  | retired (round : Nat)
  | binds

/-- The outputs of a round. -/
structure UbOutcome where
  mcAddr : UbRole → Option UbMcAddress
  outRegBufUsed : Bool

/-- A rank: its registrations and its arena, where it is, the all-gathers and rounds it has
been through, and what the last round resolved. The last two fields keep which ranges it has
retired, and which ones its reclaims have freed. -/
structure UbRank (n : Nat) where
  regs : Nat → UbReg
  arena : McArena
  phase : UbPhase n
  gathers : List UbGather
  rounds : Nat
  outcome : UbOutcome
  retired : List (Nat × Nat)
  reclaimed : List (Nat × Nat)

/-- The local ranks. Partitions are equally large, granularities are powers of two, and the
scratch of an all-gather holds at least one retired range. -/
structure UbComm (n : Nat) where
  partition : Fin (n + 1) → McPartition
  ucGranularity : Fin (n + 1) → Nat
  size : Nat
  entriesPerRound : Nat
  sameSize : ∀ rank, (partition rank).size = size
  minPower : ∀ rank, ∃ k, (partition rank).minGranularity = 2 ^ k
  ucPower : ∀ rank, ∃ k, ucGranularity rank = 2 ^ k
  someEntry : 0 < entriesPerRound

namespace UbRank

/-- A slot of `myEligibility`. -/
def slotEligibility (rank : UbRank n) (args : UbArgs) (role : UbRole) : UbSlotEligibility :=
  match args.reg role with
  | none => .zero
  | some id =>
    if args.buff role = 0 then .zero
    else
      let reg := rank.regs id
      let userOffset := args.buff role - reg.begAddr
      { userOffset
        reqExtent := userOffset + args.size role
        ucSize := alignUp (reg.endAddr - reg.begAddr) rank.arena.ucGranularity
        committed := reg.nvlsUbReg.isSome
        arenaOffset := (reg.nvlsUbReg.map McArenaReg.offset).getD 0
        eligible := true }

/-- What `ubEligibilityExchange` offers. -/
def myEligibility (rank : UbRank n) (args : UbArgs) : UbEligibility where
  slot := rank.slotEligibility args
  granularity := ubRangeAlignment rank.arena
  sendRecvAliased := (args.reg .send).isSome && args.reg .send == args.reg .recv
  hasNewRetired := rank.arena.hasNewRetiredSinceLastReclaim
  retiredCount := rank.arena.retiredQueue.length

/-- What `ubBindNewRanges` offers. -/
def myBindResult (newArenaRegs : UbRole → Option McArenaReg) : UbBindResult where
  offset := fun role => (newArenaRegs role).map McArenaReg.offset
  bound := fun role => ((newArenaRegs role).map McArenaReg.bound).getD false

/-- The offer of a rank that is in an all-gather. -/
def offer (comm : UbComm n) (rank : UbRank n) : Option UbPayload :=
  match rank.phase with
  | .idle => none
  | .eligibility args => some (.eligibility (rank.myEligibility args))
  | .retired _ round myRetired _ =>
    some (.retired ((myRetired.drop (round * comm.entriesPerRound)).take comm.entriesPerRound))
  | .binds _ newArenaRegs => some (.binds (myBindResult newArenaRegs))

/-- The end of `ncclNvlsUbRegister`. -/
def finish (rank : UbRank n) (args : UbArgs) (mcAddr : UbRole → Option UbMcAddress) : UbRank n :=
  { rank with
    phase := .idle
    rounds := rank.rounds + 1
    outcome :=
      { mcAddr
        outRegBufUsed := (args.buff .send = 0 ∨ (mcAddr .send).isSome) ∧
          (args.buff .recv = 0 ∨ (mcAddr .recv).isSome) } }

/-- The range of a role that the rank already holds. -/
def committedAddress (rank : UbRank n) (args : UbArgs) (role : UbRole) : Option UbMcAddress := do
  let reg := rank.regs (← args.reg role)
  return ubMcAddress (← reg.nvlsUbReg) reg (args.buff role)

/-- `ubEligibilityExchange` after the all-gather. -/
def settle (rank : UbRank n) (args : UbArgs) (allEligibility : Fin (n + 1) → UbEligibility) : UbRegState n where
  args
  plan := ubPlan allEligibility
  mcAddr := fun role =>
    if (ubPlan allEligibility).action role = .reuseRange then rank.committedAddress args role else none
  allEligibility

/-- The extent a role asks the arena for, 0 if none. -/
def reqBindSize (plan : UbRoundPlan) (role : UbRole) : Nat :=
  if plan.action role = .newRange ∧ plan.rangeOwner role = role then plan.bindSize role else 0

/-- A refused buffer is not tried again. -/
def markNoSupport (args : UbArgs) (status : UbRole → McBindStatus) (regs : Nat → UbReg) (role : UbRole) : Nat → UbReg :=
  match args.reg role with
  | some id => if status role = .noSupport then update regs id { regs id with noSupport := true } else regs
  | none => regs

/-- `ubBindNewRanges` up to its all-gather. -/
def bindNewRanges (rank : UbRank n) (state : UbRegState n) (verdicts : UbRole → McBindStatus) : UbRank n :=
  let (arena, out) := ncclMcArenaRegister rank.arena UbRole.all (reqBindSize state.plan) verdicts
  { rank with
    arena
    regs := UbRole.all.foldl (markNoSupport state.args fun role => (out role).2) rank.regs
    phase := .binds state fun role => (out role).1 }

/-- The rounds of `ubRetiredExchange`. -/
def exchangeRounds (comm : UbComm n) (allEligibility : Fin (n + 1) → UbEligibility) : Nat :=
  divUp ((List.ofFn fun rank => (allEligibility rank).retiredCount).foldl max 0) comm.entriesPerRound

/-- `ubReclaimRetiredRanges` after the exchange. -/
def reclaimRetired (rank : UbRank n) (state : UbRegState n) (allRetired : Fin (n + 1) → List McRetiredReg) : UbRank n :=
  let shared := sharedRetired (fun other => (state.allEligibility other).retiredCount) allRetired
  let (arena, freed) := ncclMcArenaReclaim rank.arena shared
  { rank with arena, reclaimed := rank.reclaimed ++ freed.map McArenaReg.range }

/-- The exchange of the retired ranges at the start of a round of it: the next all-gather,
or the reclaim and the bind. -/
def exchangeRetired (comm : UbComm n) (rank : UbRank n) (state : UbRegState n) (round : Nat)
    (myRetired : List McRetiredReg) (allRetired : Fin (n + 1) → List McRetiredReg) (verdicts : UbRole → McBindStatus) :
    UbRank n :=
  if round < exchangeRounds comm state.allEligibility then
    { rank with phase := .retired state round myRetired allRetired }
  else (rank.reclaimRetired state allRetired).bindNewRanges state verdicts

/-- Whether the round needs new ranges, and every buffer has been resolved up to them. -/
def needsNewRanges (args : UbArgs) (plan : UbRoundPlan) : Bool :=
  (∃ role ∈ UbRole.all, plan.action role = .newRange) ∧
    ∀ role ∈ UbRole.all, args.buff role = 0 ∨ plan.action role ≠ .fallback

/-- From the first all-gather of a round to the next, or to the end. -/
def afterEligibility (comm : UbComm n) (rank : UbRank n) (args : UbArgs)
    (allEligibility : Fin (n + 1) → UbEligibility) (verdicts : UbRole → McBindStatus) : UbRank n :=
  let state := rank.settle args allEligibility
  if needsNewRanges args state.plan then
    if ubTriggerReclaim allEligibility then
      let entriesPerRank := exchangeRounds comm allEligibility * comm.entriesPerRound
      exchangeRetired comm rank state 0 (ncclMcArenaRetiredSnapshot rank.arena entriesPerRank) (fun _ => []) verdicts
    else rank.bindNewRanges state verdicts
  else rank.finish args state.mcAddr

/-- `ubRangeStateFromBinds`. -/
def ubRangeStateFromBinds (allBindResults : Fin (n + 1) → UbBindResult) (role : UbRole) : UbRangeState :=
  if (∀ rank, (allBindResults rank).bound role = true) ∧
      ∀ rank, (allBindResults rank).offset role = (allBindResults 0).offset role then .bound
  else if ∃ rank, (allBindResults rank).bound role = true then .partlyBound
  else .unbound

/-- The loop that leaves for `dispose` at the first range that is not bound everywhere: the
states as they are then, and whether it ended. -/
def rangeStates (plan : UbRoundPlan) (allBindResults : Fin (n + 1) → UbBindResult) :
    (UbRole → UbRangeState) → List UbRole → (UbRole → UbRangeState) × Bool
  | rangeState, [] => (rangeState, true)
  | rangeState, role :: roles =>
    let now := if plan.action role = .newRange then ubRangeStateFromBinds allBindResults (plan.rangeOwner role)
      else .bound
    let rangeState := update rangeState role now
    if now = .bound then rangeStates plan allBindResults rangeState roles else (rangeState, false)

/-- A new range becomes the committed range of the registration of its role. -/
def commitRange (args : UbArgs) (newArenaRegs : UbRole → Option McArenaReg) (regs : Nat → UbReg) (role : UbRole) :
    Nat → UbReg :=
  match args.reg role, newArenaRegs role with
  | some id, some range => update regs id { regs id with nvlsUbReg := some range }
  | _, _ => regs

/-- The address of a role whose range is new. -/
def newAddress (rank : UbRank n) (state : UbRegState n) (newArenaRegs : UbRole → Option McArenaReg) (role : UbRole) :
    Option UbMcAddress := do
  let reg := rank.regs (← state.args.reg role)
  return ubMcAddress (← newArenaRegs (state.plan.rangeOwner role)) reg (state.args.buff role)

/-- All ranges are bound on all ranks. -/
def commit (rank : UbRank n) (state : UbRegState n) (newArenaRegs : UbRole → Option McArenaReg) : UbRank n :=
  { rank with
    regs := (UbRole.all.filter fun role => state.plan.action role = .newRange).foldl
      (commitRange state.args newArenaRegs) rank.regs }

/-- `ncclMcArenaRetireReg`, noted. -/
def retire (rank : UbRank n) (range : McArenaReg) : UbRank n :=
  { rank with
    arena := ncclMcArenaRetireReg rank.arena range
    retired := rank.retired ++ [range.range] }

/-- One range behind `dispose`. -/
def disposeRange (rangeState : UbRole → UbRangeState) (newArenaRegs : UbRole → Option McArenaReg) (rank : UbRank n)
    (role : UbRole) : UbRank n :=
  match newArenaRegs role with
  | none => rank
  | some range =>
    if rangeState role = .unbound then { rank with arena := ncclMcArenaDeregister rank.arena range }
    else rank.retire range

/-- `ubBindNewRanges` after its all-gather, to the end of the round. -/
def afterBinds (rank : UbRank n) (state : UbRegState n) (newArenaRegs : UbRole → Option McArenaReg)
    (allBindResults : Fin (n + 1) → UbBindResult) : UbRank n :=
  match rangeStates state.plan allBindResults (fun _ => .partlyBound) UbRole.all with
  | (_, true) =>
    (rank.commit state newArenaRegs).finish state.args fun role =>
      if state.plan.action role = .newRange then rank.newAddress state newArenaRegs role else state.mcAddr role
  | (rangeState, false) =>
    (UbRole.all.foldl (disposeRange rangeState newArenaRegs) rank).finish state.args state.mcAddr

/-- `ncclNvlsUbDeregister`. -/
def ncclNvlsUbDeregister (rank : UbRank n) (id : Nat) : UbRank n :=
  match (rank.regs id).nvlsUbReg with
  | none => rank
  | some range => { rank.retire range with regs := update rank.regs id { rank.regs id with nvlsUbReg := none } }

/-- An all-gather has returned. -/
def gathered (rank : UbRank n) (gather : UbGather) : UbRank n := { rank with gathers := rank.gathers ++ [gather] }

/-- How a rank goes on from an all-gather, with any verdicts for the binds it makes. -/
inductive Resume (comm : UbComm n) : UbRank n → (Fin (n + 1) → UbPayload) → UbRank n → Prop
  | eligibility {rank : UbRank n} {args : UbArgs} (waits : rank.phase = .eligibility args)
      (all : Fin (n + 1) → UbEligibility) (verdicts : UbRole → McBindStatus) :
      Resume comm rank (fun other => .eligibility (all other))
        ((rank.gathered .eligibility).afterEligibility comm args all verdicts)
  | retired {rank : UbRank n} {state : UbRegState n} {round : Nat} {myRetired : List McRetiredReg}
      {allRetired : Fin (n + 1) → List McRetiredReg} (waits : rank.phase = .retired state round myRetired allRetired)
      (all : Fin (n + 1) → List McRetiredReg) (verdicts : UbRole → McBindStatus) :
      Resume comm rank (fun other => .retired (all other))
        (exchangeRetired comm (rank.gathered (.retired round)) state (round + 1) myRetired
          (fun other => allRetired other ++ all other) verdicts)
  | binds {rank : UbRank n} {state : UbRegState n} {newArenaRegs : UbRole → Option McArenaReg}
      (waits : rank.phase = .binds state newArenaRegs) (all : Fin (n + 1) → UbBindResult) :
      Resume comm rank (fun other => .binds (all other)) ((rank.gathered .binds).afterBinds state newArenaRegs all)

/-- What a rank may do between rounds: give up a range, or enter the next round. A buffer
lies in its registration, and it is `NULL` on all ranks or on none. -/
inductive Act (isNull : Nat → UbRole → Bool) : UbRank n → UbRank n → Prop
  | deregister {rank : UbRank n} (idle : rank.phase = .idle) (id : Nat) : Act isNull rank (rank.ncclNvlsUbDeregister id)
  | register {rank : UbRank n} (idle : rank.phase = .idle) (args : UbArgs)
      (nulls : ∀ role, args.buff role = 0 ↔ isNull rank.rounds role = true)
      (contains : ∀ role id, args.reg role = some id → args.buff role ≠ 0 → (rank.regs id).begAddr ≤ args.buff role) :
      Act isNull rank { rank with phase := .eligibility args }

/-- A rank before the first round. -/
def init (comm : UbComm n) (rank : Fin (n + 1)) (extent : Nat → Nat × Nat) : UbRank n where
  regs := fun id => ⟨(extent id).1, (extent id).2, false, none⟩
  arena := ncclMcArenaInit (comm.partition rank) (comm.ucGranularity rank)
  phase := .idle
  gathers := []
  rounds := 0
  outcome := ⟨fun _ => none, false⟩
  retired := []
  reclaimed := []

end UbRank

/-- The all-gather that a rank is in, or makes next. -/
def UbRank.nextGather (rank : UbRank n) : UbGather :=
  match rank.phase with
  | .idle => .eligibility
  | .eligibility _ => .eligibility
  | .retired _ round _ _ => .retired round
  | .binds _ _ => .binds

/-! ### What the ranks hold -/

/-- What can own a range of the arena between rounds. -/
inductive UbOwner where
  | committed (id : Nat)
  | retired (index : Nat)

/-- The range of an owner. -/
def UbRank.held (rank : UbRank n) : UbOwner → Option (Nat × Nat)
  | .committed id => (rank.regs id).nvlsUbReg.map McArenaReg.range
  | .retired index => rank.arena.retiredQueue[index]?.map McArenaReg.range

/-- The cross-rank maximum of the alignments. -/
def UbComm.alignment (comm : UbComm n) : Nat :=
  ubAlignment fun rank => max (comm.ucGranularity rank) (comm.partition rank).minGranularity

/-- The ranks and their all-gathers. -/
def UbComm.gathering (comm : UbComm n) (isNull : Nat → UbRole → Bool) :
    Gathering (Fin (n + 1)) (UbRank n) UbPayload where
  offer := UbRank.offer comm
  act := fun _ => UbRank.Act isNull
  resume := fun _ => UbRank.Resume comm

end NcclCore
