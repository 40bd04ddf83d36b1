import NcclCore.NvlsUbRoundProofs

/-! The ranks agree. What they share is where they are in a round, with what was gathered
in it, the space of the arena, the all-gathers and rounds so far, what the last round
resolved as offsets, and what was reclaimed. An all-gather changes it in the same way on
every rank. -/
namespace NcclCore.NvlsUbProofs
open Lib SpaceProofs McArenaProofs UbRank
variable {n : Nat} {comm : UbComm n} {i j : Fin (n + 1)} {rank rank' : UbRank n} {state state' : UbRegState n}
  {args args' : UbArgs} {ranks : Fin (n + 1) → UbRank n} {all : Fin (n + 1) → UbPayload}
  {allEligibility : Fin (n + 1) → UbEligibility} {round : Nat}

/-! ### What the ranks share -/

/-- The offsets that addresses are made of: of the range in the arena, and of the buffer in
the range. -/
def offsetsOf (mcAddr : UbRole → Option UbMcAddress) (role : UbRole) : Option (Nat × Nat) :=
  (mcAddr role).map fun resolved => (resolved.range.offset, resolved.userOffset)

/-- What ranks share of an attempt. -/
structure UbSettled (n : Nat) where
  plan : UbRoundPlan
  allEligibility : Fin (n + 1) → UbEligibility
  offsets : UbRole → Option (Nat × Nat)

def settledOf (state : UbRegState n) : UbSettled n := ⟨state.plan, state.allEligibility, offsetsOf state.mcAddr⟩

/-- What ranks share of where they are. -/
inductive UbStage (n : Nat) where
  | start
  | retired (settled : UbSettled n) (round : Nat) (allRetired : Fin (n + 1) → List McRetiredReg)
  | binds (settled : UbSettled n) (ranges : UbRole → Option (Nat × Nat))

def stageOf : UbPhase n → UbStage n
  | .idle => .start
  | .eligibility _ => .start
  | .retired state round _ allRetired => .retired (settledOf state) round allRetired
  | .binds state newArenaRegs => .binds (settledOf state) fun role => (newArenaRegs role).map McArenaReg.range

/-- What the ranks share. -/
structure UbView (n : Nat) where
  stage : UbStage n
  space : List Nat
  gathers : List UbGather
  rounds : Nat
  offsets : UbRole → Option (Nat × Nat)
  reclaimed : List (Nat × Nat)

def viewOf (rank : UbRank n) : UbView n where
  stage := stageOf rank.phase
  space := rank.arena.space
  gathers := rank.gathers
  rounds := rank.rounds
  offsets := offsetsOf rank.outcome.mcAddr
  reclaimed := rank.reclaimed

/-- Two ranks share all but where they are. -/
structure Alike (rank rank' : UbRank n) : Prop where
  space : rank.arena.space = rank'.arena.space
  gathers : rank.gathers = rank'.gathers
  rounds : rank.rounds = rank'.rounds
  offsets : offsetsOf rank.outcome.mcAddr = offsetsOf rank'.outcome.mcAddr
  reclaimed : rank.reclaimed = rank'.reclaimed

theorem viewOf_eq_iff : viewOf rank = viewOf rank' ↔ stageOf rank.phase = stageOf rank'.phase ∧ Alike rank rank' := by
  constructor
  · intro same
    obtain ⟨stage, space, gathers, rounds, offsets, reclaimed⟩ := UbView.mk.inj same
    exact ⟨stage, space, gathers, rounds, offsets, reclaimed⟩
  · rintro ⟨stage, alike⟩
    simp [viewOf, stage, alike.space, alike.gathers, alike.rounds, alike.offsets, alike.reclaimed]

theorem Alike.gathered (alike : Alike rank rank') (gather : UbGather) :
    Alike (rank.gathered gather) (rank'.gathered gather) where
  __ := alike
  gathers := congrArg (· ++ [gather]) alike.gathers

/-! ### The parts of a round, on two ranks -/

theorem finish_view (space : rank.arena.space = rank'.arena.space) (gathers : rank.gathers = rank'.gathers)
    (rounds : rank.rounds = rank'.rounds) (reclaimed : rank.reclaimed = rank'.reclaimed)
    (offsets : offsetsOf mcAddr = offsetsOf mcAddr') :
    viewOf (rank.finish args mcAddr) = viewOf (rank'.finish args' mcAddr') :=
  viewOf_eq_iff.mpr ⟨rfl, space, gathers, congrArg (· + 1) rounds, offsets, reclaimed⟩

section
variable (core : Core comm i rank []) (core' : Core comm j rank' []) (alike : Alike rank rank')
include core core' alike

theorem bind_view (planned : Planned comm isNull i rank state) (settled : settledOf state = settledOf state') :
    viewOf (rank.bindNewRanges state verdicts) = viewOf (rank'.bindNewRanges state' verdicts') := by
  have limit : rank.arena.partition.size = rank'.arena.partition.size := by
    rw [core.partition, core'.partition, comm.sameSize, comm.sameSize]
  obtain ⟨space, ranges⟩ := bindNewRanges_agree core.books core'.books alike.space limit
    (UbSettled.mk.inj settled).1 planned.whole verdicts verdicts'
  refine viewOf_eq_iff.mpr ⟨?_, space, alike.gathers, alike.rounds, alike.offsets, alike.reclaimed⟩
  exact congrArg₂ UbStage.binds settled (funext ranges)

theorem reclaim_alike (queue : (ranks i).arena.retiredQueue = rank.arena.retiredQueue)
    (queue' : (ranks j).arena.retiredQueue = rank'.arena.retiredQueue)
    (eligibility : state.allEligibility = state'.allEligibility)
    (shared : Shared ranks (sharedOf state.allEligibility allRetired)) :
    Alike (rank.reclaimRetired state allRetired) (rank'.reclaimRetired state' allRetired) := by
  have found := shared.found i
  have found' := shared.found j
  rw [queue] at found
  rw [queue'] at found'
  obtain ⟨ledger, freed, covered⟩ := Ledger.reclaim core.books shared.ordered found
  obtain ⟨ledger', freed', covered'⟩ := Ledger.reclaim core'.books shared.ordered found'
  obtain ⟨ids, -, -, holds⟩ := ledger.held
  obtain ⟨ids', -, -, holds'⟩ := ledger'.held
  have spaces : (ncclMcArenaReclaim rank.arena (sharedOf state.allEligibility allRetired)).1.space =
      (ncclMcArenaReclaim rank'.arena (sharedOf state.allEligibility allRetired)).1.space :=
    holds.space_eq holds' fun x => by rw [covered, covered', alike.space]
  rw [reclaimRetired, reclaimRetired, ← eligibility]
  exact ⟨spaces, alike.gathers, alike.rounds, alike.offsets,
    congrArg₂ (· ++ ·) alike.reclaimed (freed.trans freed'.symm)⟩

theorem exchange_view (planned : Planned comm isNull i rank state)
    (settled : settledOf state = settledOf state') (queue : (ranks i).arena.retiredQueue = rank.arena.retiredQueue)
    (queue' : (ranks j).arena.retiredQueue = rank'.arena.retiredQueue)
    (shared : ¬ round < exchangeRounds comm state.allEligibility →
      Shared ranks (sharedOf state.allEligibility allRetired)) :
    viewOf (exchangeRetired comm rank state round myRetired allRetired verdicts) =
      viewOf (exchangeRetired comm rank' state' round myRetired' allRetired verdicts') := by
  have eligibility := (UbSettled.mk.inj settled).2.1
  rw [exchangeRetired, exchangeRetired, ← eligibility]
  split
  · refine viewOf_eq_iff.mpr ⟨?_, alike.space, alike.gathers, alike.rounds, alike.offsets, alike.reclaimed⟩
    exact congrArg (UbStage.retired · round allRetired) settled
  case isFalse last =>
    have shared' := shared last
    refine bind_view (reclaim_core core queue shared') (reclaim_core core' queue' (eligibility ▸ shared'))
      (reclaim_alike core core' alike queue queue' eligibility shared')
      (planned.of_eq rfl (fun _ => ⟨rfl, rfl, rfl⟩) rfl) settled

end

/-- What is resolved by ranges that are reused. -/
theorem settle_offsets (planned : Planned comm isNull i rank (rank.settle args allEligibility)) :
    offsetsOf (rank.settle args allEligibility).mcAddr = fun role =>
      if (ubPlan allEligibility).action role = .reuseRange then
        some (((allEligibility 0).slot role).arenaOffset, ((allEligibility 0).slot role).userOffset)
      else none := by
  funext role
  rw [offsetsOf, UbRank.settle]
  dsimp only
  split
  case isTrue reuse =>
    obtain ⟨id, range, isReg, isRange, arenaOffset, userOffset⟩ := planned.reuses reuse
    have isReg : args.reg role = some id := isReg
    have arenaOffset : range.offset = ((allEligibility 0).slot role).arenaOffset := arenaOffset
    have userOffset : args.buff role - (rank.regs id).begAddr = ((allEligibility 0).slot role).userOffset := userOffset
    simp [committedAddress, isReg, isRange, ubMcAddress, arenaOffset, userOffset]
  · rfl

/-- What is resolved by new ranges. -/
theorem newAddress_offsets (planned : Planned comm isNull i rank state) (new : state.plan.action role = .newRange) :
    (rank.newAddress state newArenaRegs role).map (fun resolved => (resolved.range.offset, resolved.userOffset)) =
      ((newArenaRegs (state.plan.rangeOwner role)).map McArenaReg.range).map fun range =>
        (range.1, ((state.allEligibility 0).slot role).userOffset) := by
  obtain ⟨id, isReg, -, userOffset⟩ := planned.begins new
  rw [newAddress, isReg]
  cases newArenaRegs (state.plan.rangeOwner role) with
  | none => rfl
  | some => simp [ubMcAddress, McArenaReg.range, userOffset]

theorem afterBinds_view (core : Core comm i rank (rangesOf newArenaRegs UbRole.all))
    (core' : Core comm j rank' (rangesOf newArenaRegs' UbRole.all)) (alike : Alike rank rank')
    (planned : Planned comm isNull i rank state) (planned' : Planned comm isNull j rank' state')
    (settled : settledOf state = settledOf state')
    (ranges : ∀ role, (newArenaRegs role).map McArenaReg.range = (newArenaRegs' role).map McArenaReg.range)
    (all : Fin (n + 1) → UbBindResult) :
    viewOf (rank.afterBinds state newArenaRegs all) = viewOf (rank'.afterBinds state' newArenaRegs' all) := by
  obtain ⟨plan, eligibility, offsets⟩ := UbSettled.mk.inj settled
  rw [afterBinds, afterBinds, ← plan]
  rcases rangeStates state.plan all (fun _ => .partlyBound) UbRole.all with ⟨rangeState, ended⟩
  cases ended with
  | true =>
    refine finish_view alike.space alike.gathers alike.rounds alike.reclaimed (funext fun role => ?_)
    rw [offsetsOf, offsetsOf]
    split
    case isTrue new =>
      rw [newAddress_offsets planned new, newAddress_offsets planned' (plan ▸ new), ranges, plan, eligibility]
    · exact congrFun offsets role
  | false =>
    have disposed := dispose_spec rangeState newArenaRegs UbRole.all rank
    have disposed' := dispose_spec rangeState newArenaRegs' UbRole.all rank'
    refine finish_view (dispose_agree core.books core'.books ranges alike.space) ?_ ?_ ?_ offsets
    · rw [disposed.gathers, disposed'.gathers, alike.gathers]
    · rw [disposed.rounds, disposed'.rounds, alike.rounds]
    · rw [disposed.reclaimed, disposed'.reclaimed, alike.reclaimed]

/-! ### An all-gather -/

/-- The ranks have reached an all-gather: it is the same one on all of them. -/
inductive Meeting (comm : UbComm n) (ranks : Fin (n + 1) → UbRank n) : (Fin (n + 1) → UbPayload) → Prop
  | eligibility (args : Fin (n + 1) → UbArgs) (phase : ∀ i, (ranks i).phase = .eligibility (args i)) :
      Meeting comm ranks fun i => .eligibility ((ranks i).myEligibility (args i))
  | retired (state : Fin (n + 1) → UbRegState n) (round : Nat) (myRetired : Fin (n + 1) → List McRetiredReg)
      (allRetired : Fin (n + 1) → List McRetiredReg)
      (phase : ∀ i, (ranks i).phase = .retired (state i) round (myRetired i) allRetired)
      (settled : ∀ i j, settledOf (state i) = settledOf (state j)) :
      Meeting comm ranks fun i =>
        .retired (((myRetired i).drop (round * comm.entriesPerRound)).take comm.entriesPerRound)
  | binds (state : Fin (n + 1) → UbRegState n) (newArenaRegs : Fin (n + 1) → UbRole → Option McArenaReg)
      (phase : ∀ i, (ranks i).phase = .binds (state i) (newArenaRegs i))
      (settled : ∀ i j, settledOf (state i) = settledOf (state j))
      (ranges : ∀ i j role, (newArenaRegs i role).map McArenaReg.range = (newArenaRegs j role).map McArenaReg.range) :
      Meeting comm ranks fun i => .binds (myBindResult (newArenaRegs i))

theorem eligibility_of_offer (stage : stageOf rank.phase = .start) (offer : rank.offer comm = some payload) :
    ∃ args, rank.phase = .eligibility args ∧ payload = .eligibility (rank.myEligibility args) := by
  rw [UbRank.offer] at offer
  cases phase : rank.phase with
  | eligibility args =>
    rw [phase] at offer
    exact ⟨args, rfl, (Option.some.inj offer).symm⟩
  | idle =>
    rw [phase] at offer
    exact nomatch offer
  | retired | binds =>
    rw [phase] at stage
    exact nomatch stage

theorem retired_of_stage {phase : UbPhase n} (stage : stageOf phase = .retired settled round allRetired) :
    ∃ state myRetired, phase = .retired state round myRetired allRetired ∧ settledOf state = settled := by
  cases phase with
  | retired state round' myRetired allRetired' =>
    obtain ⟨settled, rfl, rfl⟩ := UbStage.retired.inj stage
    exact ⟨state, myRetired, rfl, settled⟩
  | idle | eligibility | binds => exact nomatch stage

theorem binds_of_stage {phase : UbPhase n} (stage : stageOf phase = .binds settled ranges) :
    ∃ state newArenaRegs, phase = .binds state newArenaRegs ∧ settledOf state = settled ∧
      ∀ role, (newArenaRegs role).map McArenaReg.range = ranges role := by
  cases phase with
  | binds state newArenaRegs =>
    obtain ⟨settled, ranges⟩ := UbStage.binds.inj stage
    exact ⟨state, newArenaRegs, rfl, settled, congrFun ranges⟩
  | idle | eligibility | retired => exact nomatch stage

theorem meeting (offered : (comm.gathering isNull).Offered (RankInv comm isNull) viewOf ranks all) :
    Meeting comm ranks all := by
  have offers : ∀ i, (ranks i).offer comm = some (all i) := offered.offers
  have stages : ∀ i, stageOf (ranks i).phase = stageOf (ranks 0).phase :=
    fun i => (viewOf_eq_iff.mp (offered.views i 0)).1
  -- The first rank decides which all-gather it is.
  cases first : stageOf (ranks 0).phase with
  | start =>
    choose args phase same using fun i => eligibility_of_offer ((stages i).trans first) (offers i)
    rw [funext same]
    exact .eligibility args phase
  | retired settled₀ round allRetired =>
    choose state myRetired phase settled using fun i => retired_of_stage ((stages i).trans first)
    have same : all = fun i =>
        .retired (((myRetired i).drop (round * comm.entriesPerRound)).take comm.entriesPerRound) := by
      funext i
      have offer := offers i
      rw [UbRank.offer, phase i] at offer
      exact (Option.some.inj offer).symm
    rw [same]
    exact .retired state round myRetired allRetired phase fun i j => (settled i).trans (settled j).symm
  | binds =>
    choose state newArenaRegs phase settled ranges using fun i => binds_of_stage ((stages i).trans first)
    have same : all = fun i => .binds (myBindResult (newArenaRegs i)) := by
      funext i
      have offer := offers i
      rw [UbRank.offer, phase i] at offer
      exact (Option.some.inj offer).symm
    rw [same]
    exact .binds state newArenaRegs phase (fun i j => (settled i).trans (settled j).symm)
      fun i j role => (ranges i role).trans (ranges j role).symm

/-! ### How a rank goes on -/

variable {myRetired : List McRetiredReg} {allRetired : Fin (n + 1) → List McRetiredReg}

theorem resume_eligibility (phase : rank.phase = .eligibility args)
    (resumes : Resume comm rank (fun i => .eligibility (allEligibility i)) rank') :
    ∃ verdicts, rank' = (rank.gathered .eligibility).afterEligibility comm args allEligibility verdicts := by
  generalize same : (fun i => UbPayload.eligibility (allEligibility i)) = all at resumes
  cases resumes with
  | eligibility waits all verdicts =>
    cases phase.symm.trans waits
    obtain rfl : allEligibility = all := funext fun i => UbPayload.eligibility.inj (congrFun same i)
    exact ⟨verdicts, rfl⟩
  | retired | binds => exact nomatch congrFun same 0

theorem resume_retired {chunks : Fin (n + 1) → List McRetiredReg}
    (phase : rank.phase = .retired state round myRetired allRetired)
    (resumes : Resume comm rank (fun i => .retired (chunks i)) rank') :
    ∃ verdicts, rank' = exchangeRetired comm (rank.gathered (.retired round)) state (round + 1) myRetired
      (fun i => allRetired i ++ chunks i) verdicts := by
  generalize same : (fun i => UbPayload.retired (chunks i)) = all at resumes
  cases resumes with
  | eligibility => exact nomatch congrFun same 0
  | retired waits all verdicts =>
    cases phase.symm.trans waits
    obtain rfl : chunks = all := funext fun i => UbPayload.retired.inj (congrFun same i)
    exact ⟨verdicts, rfl⟩
  | binds => exact nomatch congrFun same 0

theorem resume_binds (phase : rank.phase = .binds state newArenaRegs)
    (resumes : Resume comm rank (fun i => .binds (results i)) rank') :
    rank' = (rank.gathered .binds).afterBinds state newArenaRegs results := by
  generalize same : (fun i => UbPayload.binds (results i)) = all at resumes
  cases resumes with
  | eligibility | retired => exact nomatch congrFun same 0
  | binds waits all =>
    cases phase.symm.trans waits
    obtain rfl : results = all := funext fun i => UbPayload.binds.inj (congrFun same i)
    rfl

theorem Core.gathered (core : Core comm i rank pending) (gather : UbGather) :
    Core comm i (rank.gathered gather) pending :=
  core.of_eq (fun _ => rfl) rfl rfl rfl core.outcome

/-! ### From the first all-gather -/

section
variable {args : Fin (n + 1) → UbArgs} (invs : ∀ i, RankInv comm isNull i (ranks i))
  (phase : ∀ i, (ranks i).phase = .eligibility (args i))
include invs phase

theorem eligibility_core (i : Fin (n + 1)) : Core comm i ((ranks i).gathered .eligibility) [] := by
  have core := (invs i).core
  rw [phase i] at core
  exact core.gathered .eligibility

theorem eligibility_planned (i : Fin (n + 1)) :
    Planned comm isNull i ((ranks i).gathered .eligibility)
      (((ranks i).gathered .eligibility).settle (args i) fun j => (ranks j).myEligibility (args j)) where
  nulls := by
    have nulls := (invs i).phase
    rw [phase i] at nulls
    exact nulls
  plan := rfl
  aligned := by
    refine congrArg ubAlignment (funext fun j => ?_)
    have core := (invs j).core
    exact congrArg₂ max core.ucGranularity (congrArg McPartition.minGranularity core.partition)
  slots := fun _ => rfl
  aliased := rfl
  based := by
    intro role resolved found
    rw [UbRank.settle] at found
    dsimp only at found
    split at found
    · rw [committedAddress] at found
      obtain ⟨id, -, found⟩ := Option.bind_eq_some_iff.mp found
      obtain ⟨range, isRange, found⟩ := Option.bind_eq_some_iff.mp found
      cases found
      exact (invs i).core.committed id range isRange
    · exact nomatch found

/-- The exchange begins with empty lists. -/
theorem eligibility_exchanging (i : Fin (n + 1)) :
    Exchanging comm i ((ranks i).gathered .eligibility) (fun j => (ranks j).myEligibility (args j)) 0
      (ncclMcArenaRetiredSnapshot (ranks i).arena
        (exchangeRounds comm (fun j => (ranks j).myEligibility (args j)) * comm.entriesPerRound))
      fun _ => [] where
  sorted := (eligibility_core invs phase i).books.sorted
  count := rfl
  snapshot := rfl
  own := by rw [Nat.zero_mul, List.take_zero]
  within := Nat.zero_le _

theorem eligibility_shared (last : ¬ 0 < exchangeRounds comm fun j => (ranks j).myEligibility (args j)) :
    Shared ranks (sharedOf (fun j => (ranks j).myEligibility (args j)) fun _ => []) := by
  have shared := shared_of_exchanging (eligibility_exchanging invs phase) last
  exact ⟨shared.ordered, shared.found⟩

theorem afterEligibility_inv (i : Fin (n + 1)) (verdicts : UbRole → McBindStatus) :
    RankInv comm isNull i (((ranks i).gathered .eligibility).afterEligibility comm (args i)
      (fun j => (ranks j).myEligibility (args j)) verdicts) := by
  have core := eligibility_core invs phase i
  have planned := eligibility_planned invs phase i
  rw [afterEligibility]
  split
  · split
    · exact exchange_inv core planned (eligibility_exchanging invs phase i) rfl (eligibility_shared invs phase)
    · exact bind_inv core planned
  · exact finish_inv core planned.based

theorem afterEligibility_view (alike : Alike (ranks i) (ranks j)) (verdicts verdicts' : UbRole → McBindStatus) :
    viewOf (((ranks i).gathered .eligibility).afterEligibility comm (args i)
        (fun j => (ranks j).myEligibility (args j)) verdicts) =
      viewOf (((ranks j).gathered .eligibility).afterEligibility comm (args j)
        (fun j => (ranks j).myEligibility (args j)) verdicts') := by
  have core := eligibility_core invs phase i
  have core' := eligibility_core invs phase j
  have planned := eligibility_planned invs phase i
  have planned' := eligibility_planned invs phase j
  have alike' := alike.gathered .eligibility
  have offsets := (settle_offsets planned).trans (settle_offsets planned').symm
  have settled :
      settledOf (((ranks i).gathered .eligibility).settle (args i) fun j => (ranks j).myEligibility (args j)) =
      settledOf (((ranks j).gathered .eligibility).settle (args j) fun j => (ranks j).myEligibility (args j)) :=
    congrArg (UbSettled.mk _ _) offsets
  have nulls : ∀ role, (args i).buff role = 0 ↔ (args j).buff role = 0 := by
    intro role
    have null : (args i).buff role = 0 ↔ isNull (ranks i).rounds role = true := planned.nulls role
    have null' : (args j).buff role = 0 ↔ isNull (ranks j).rounds role = true := planned'.nulls role
    rw [null, null', alike.rounds]
  have needs : needsNewRanges (args i) (ubPlan fun j => (ranks j).myEligibility (args j)) =
      needsNewRanges (args j) (ubPlan fun j => (ranks j).myEligibility (args j)) := by
    simp [needsNewRanges, nulls]
  have plan : ∀ i, (((ranks i).gathered .eligibility).settle (args i) fun j => (ranks j).myEligibility (args j)).plan =
      ubPlan fun j => (ranks j).myEligibility (args j) := fun _ => rfl
  rw [afterEligibility, afterEligibility]
  simp only [plan, needs]
  split
  · split
    · exact exchange_view core core' alike' planned settled rfl rfl (eligibility_shared invs phase)
    · exact bind_view core core' alike' planned settled
  · exact finish_view alike'.space alike'.gathers alike'.rounds alike'.reclaimed offsets

end

/-! ### From an all-gather of the exchange -/

section
variable {state : Fin (n + 1) → UbRegState n} {myRetired : Fin (n + 1) → List McRetiredReg}
  (invs : ∀ i, RankInv comm isNull i (ranks i))
  (phase : ∀ i, (ranks i).phase = .retired (state i) round (myRetired i) allRetired)
  (settled : ∀ i j, settledOf (state i) = settledOf (state j))
include invs phase

/-- What a rank has received in this round of the exchange. -/
def received (comm : UbComm n) (round : Nat) (myRetired : Fin (n + 1) → List McRetiredReg) (i : Fin (n + 1)) :
    List McRetiredReg :=
  ((myRetired i).drop (round * comm.entriesPerRound)).take comm.entriesPerRound

theorem retired_core (i : Fin (n + 1)) : Core comm i ((ranks i).gathered (.retired round)) [] := by
  have core := (invs i).core
  rw [phase i] at core
  exact core.gathered _

theorem retired_planned (i : Fin (n + 1)) : Planned comm isNull i ((ranks i).gathered (.retired round)) (state i) := by
  have planned := (invs i).phase
  rw [phase i] at planned
  exact planned.1.of_eq rfl (fun _ => ⟨rfl, rfl, rfl⟩) rfl

theorem retired_exchanging (i : Fin (n + 1)) :
    Exchanging comm i (ranks i) (state i).allEligibility (round + 1) (myRetired i) fun j =>
      allRetired j ++ received comm round myRetired j := by
  have planned := (invs i).phase
  rw [phase i] at planned
  exact planned.2.1.next planned.2.2 rfl

include settled

theorem retired_shared (i : Fin (n + 1)) (last : ¬ round + 1 < exchangeRounds comm (state i).allEligibility) :
    Shared ranks (sharedOf (state i).allEligibility fun j => allRetired j ++ received comm round myRetired j) := by
  have exchanging : ∀ j, Exchanging comm j (ranks j) (state i).allEligibility (round + 1) (myRetired j) fun j =>
      allRetired j ++ received comm round myRetired j := by
    intro j
    have eligibility := (UbSettled.mk.inj (settled i j)).2.1
    rw [eligibility]
    exact retired_exchanging invs phase j
  exact shared_of_exchanging exchanging last

end

/-! ### Agreement -/

theorem agreeing : (comm.gathering isNull).Agreeing (RankInv comm isNull) viewOf where
  act_inv := fun inv act => inv.act act
  act_view := by
    intro i rank rank' inv act
    cases act with
    | deregister idle id =>
      obtain ⟨phase, space, gathers, rounds, outcome, reclaimed, -⟩ := deregister_same rank id
      exact viewOf_eq_iff.mpr ⟨congrArg stageOf phase, space, gathers, rounds, by rw [outcome], reclaimed⟩
    | register idle args nulls contains =>
      exact viewOf_eq_iff.mpr ⟨by rw [idle]; rfl, rfl, rfl, rfl, rfl, rfl⟩
  resume_inv := by
    intro ranks all i rank' offered resumes
    cases meeting offered with
    | eligibility args phase =>
      obtain ⟨verdicts, rfl⟩ := resume_eligibility (phase i) resumes
      exact afterEligibility_inv offered.inv phase i verdicts
    | retired state round myRetired allRetired phase settled =>
      obtain ⟨verdicts, rfl⟩ := resume_retired (phase i) resumes
      exact exchange_inv (retired_core offered.inv phase i) (retired_planned offered.inv phase i)
        { retired_exchanging offered.inv phase i with } rfl (retired_shared offered.inv phase settled i)
    | binds state newArenaRegs phase settled ranges =>
      have inv := offered.inv i
      have core := inv.core
      have planned := inv.phase
      rw [phase i] at core planned
      rw [resume_binds (phase i) resumes]
      exact afterBinds_inv planned.2 (core.gathered _) (planned.1.of_eq rfl (fun _ => ⟨rfl, rfl, rfl⟩) rfl) _
  resume_view := by
    intro ranks all i j rank' rank'' offered resumes resumes'
    have alike := (viewOf_eq_iff.mp (offered.views i j)).2
    cases meeting offered with
    | eligibility args phase =>
      obtain ⟨verdicts, rfl⟩ := resume_eligibility (phase i) resumes
      obtain ⟨verdicts', rfl⟩ := resume_eligibility (phase j) resumes'
      exact afterEligibility_view offered.inv phase alike verdicts verdicts'
    | retired state round myRetired allRetired phase settled =>
      obtain ⟨-, rfl⟩ := resume_retired (phase i) resumes
      obtain ⟨-, rfl⟩ := resume_retired (phase j) resumes'
      exact exchange_view (retired_core offered.inv phase i) (retired_core offered.inv phase j) (alike.gathered _)
        (retired_planned offered.inv phase i) (settled i j) rfl rfl (retired_shared offered.inv phase settled i)
    | binds state newArenaRegs phase settled ranges =>
      have core := (offered.inv i).core
      have core' := (offered.inv j).core
      have planned := (offered.inv i).phase
      have planned' := (offered.inv j).phase
      rw [phase i] at core planned
      rw [phase j] at core' planned'
      rw [resume_binds (phase i) resumes, resume_binds (phase j) resumes']
      exact afterBinds_view (core.gathered _) (core'.gathered _) (alike.gathered _)
        (planned.1.of_eq rfl (fun _ => ⟨rfl, rfl, rfl⟩) rfl) (planned'.1.of_eq rfl (fun _ => ⟨rfl, rfl, rfl⟩) rfl)
        (settled i j) (ranges i j) _

end NcclCore.NvlsUbProofs
