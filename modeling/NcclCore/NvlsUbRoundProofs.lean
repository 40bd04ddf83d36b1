import NcclCore.NvlsUbRankProofs

/-! What a rank knows in each phase of a round, and that it goes on knowing it. In a round
its own payload is what it offered, so that the plan says the truth about its registrations;
and when the retired ranges have been exchanged, the lists are the queues. -/
namespace NcclCore.NvlsUbProofs
open Lib SpaceProofs McArenaProofs List UbRank
variable {n : Nat} {comm : UbComm n} {isNull : Nat → UbRole → Bool} {i : Fin (n + 1)} {rank rank' : UbRank n}
  {state : UbRegState n} {pending : List (Nat × Nat)} {args : UbArgs} {round : Nat} {myRetired : List McRetiredReg}
  {allRetired : Fin (n + 1) → List McRetiredReg} {allEligibility : Fin (n + 1) → UbEligibility}

section
variable (comm : UbComm n)

/-- The address is that of the offset in the partition of this rank. -/
def Based (i : Fin (n + 1)) (range : McArenaReg) : Prop :=
  range.mcBaseAddress = (comm.partition i).ptr + range.offset

def AllBased (i : Fin (n + 1)) (mcAddr : UbRole → Option UbMcAddress) : Prop :=
  ∀ role resolved, mcAddr role = some resolved → Based comm i resolved.range

/-- What holds of a rank in every phase. -/
structure Core (i : Fin (n + 1)) (rank : UbRank n) (pending : List (Nat × Nat)) : Prop where
  partition : rank.arena.partition = comm.partition i
  ucGranularity : rank.arena.ucGranularity = comm.ucGranularity i
  books : Books comm.alignment rank pending
  committed : ∀ id range, (rank.regs id).nvlsUbReg = some range → Based comm i range
  outcome : AllBased comm i rank.outcome.mcAddr

/-- What a rank knows once a plan has been settled. -/
structure Planned (isNull : Nat → UbRole → Bool) (i : Fin (n + 1)) (rank : UbRank n)
    (state : UbRegState n) : Prop where
  nulls : ∀ role, state.args.buff role = 0 ↔ isNull rank.rounds role = true
  plan : state.plan = ubPlan state.allEligibility
  aligned : (ubAlignment fun other => (state.allEligibility other).granularity) = comm.alignment
  slots : ∀ role, (state.allEligibility i).slot role = rank.slotEligibility state.args role
  aliased : (state.allEligibility i).sendRecvAliased =
    ((state.args.reg .send).isSome && state.args.reg .send == state.args.reg .recv)
  based : AllBased comm i state.mcAddr

/-- So many rounds of the exchange have been made, and its own list is what it sent. -/
structure Exchanging (i : Fin (n + 1)) (rank : UbRank n)
    (allEligibility : Fin (n + 1) → UbEligibility) (round : Nat) (myRetired : List McRetiredReg)
    (allRetired : Fin (n + 1) → List McRetiredReg) : Prop where
  sorted : Sorted rank.arena.retiredQueue
  count : (allEligibility i).retiredCount = rank.arena.retiredQueue.length
  snapshot : myRetired =
    ncclMcArenaRetiredSnapshot rank.arena (exchangeRounds comm allEligibility * comm.entriesPerRound)
  own : allRetired i = myRetired.take (round * comm.entriesPerRound)
  within : round ≤ exchangeRounds comm allEligibility

/-- What a rank knows in its phase. -/
def PhaseInv (isNull : Nat → UbRole → Bool) (i : Fin (n + 1)) (rank : UbRank n) : UbPhase n → Prop
  | .idle => True
  | .eligibility args => ∀ role, args.buff role = 0 ↔ isNull rank.rounds role = true
  | .retired state round myRetired allRetired => Planned comm isNull i rank state ∧
      Exchanging comm i rank state.allEligibility round myRetired allRetired ∧
      round < exchangeRounds comm state.allEligibility
  | .binds state newArenaRegs => Planned comm isNull i rank state ∧
      ∀ role reg, newArenaRegs role = some reg → state.plan.action role = .newRange ∧
        state.plan.rangeOwner role = role ∧ Based comm i reg

end

/-- The ranges that a rank has reserved and not yet committed. -/
def pendingOf : UbPhase n → List (Nat × Nat)
  | .binds _ newArenaRegs => rangesOf newArenaRegs UbRole.all
  | _ => []

structure RankInv (comm : UbComm n) (isNull : Nat → UbRole → Bool) (i : Fin (n + 1)) (rank : UbRank n) : Prop where
  core : Core comm i rank (pendingOf rank.phase)
  phase : PhaseInv comm isNull i rank rank.phase

/-! ### Between rounds -/

theorem Core.of_eq (core : Core comm i rank pending)
    (regs : ∀ id, (rank'.regs id).nvlsUbReg = (rank.regs id).nvlsUbReg) (arena : rank'.arena = rank.arena)
    (retired : rank'.retired = rank.retired) (reclaimed : rank'.reclaimed = rank.reclaimed)
    (outcome : AllBased comm i rank'.outcome.mcAddr) : Core comm i rank' pending where
  partition := by rw [arena]; exact core.partition
  ucGranularity := by rw [arena]; exact core.ucGranularity
  books := core.books.of_eq regs arena retired reclaimed
  committed := fun id range found => core.committed id range (by rw [← regs]; exact found)
  outcome := outcome

theorem RankInv.init (comm : UbComm n) (isNull : Nat → UbRole → Bool) (i : Fin (n + 1)) (extent : Nat → Nat × Nat) :
    RankInv comm isNull i (UbRank.init comm i extent) := by
  have divides : (comm.partition i).minGranularity ∣ comm.alignment := by
    have powers : ∀ rank, ∃ k, max (comm.ucGranularity rank) (comm.partition rank).minGranularity = 2 ^ k := by
      intro rank
      rcases Nat.le_total (comm.ucGranularity rank) (comm.partition rank).minGranularity with less | less
      · rw [max_eq_right less]
        exact comm.minPower rank
      · rw [max_eq_left less]
        exact comm.ucPower rank
    refine Nat.dvd_trans ?_ (dvd_ubAlignment powers i)
    obtain ⟨k, power⟩ := comm.minPower i
    obtain ⟨m, power'⟩ := powers i
    have less := le_max_right (comm.ucGranularity i) (comm.partition i).minGranularity
    rw [power', power] at less
    rw [power', power]
    exact pow_dvd_pow 2 ((Nat.pow_le_pow_iff_right one_lt_two).mp less)
  refine ⟨⟨rfl, rfl, ⟨⟨[], .nil, fun id => ?_, Holds.init (comm.minPower i) divides⟩, .nil, .refl _⟩, nofun, nofun⟩,
    trivial⟩
  simp [UbRank.init]

theorem Core.deregister (core : Core comm i rank pending) (id : Nat) :
    Core comm i (rank.ncclNvlsUbDeregister id) pending := by
  have books := core.books.deregister id
  rw [ncclNvlsUbDeregister] at books ⊢
  split at books
  · exact core
  · refine ⟨core.partition, core.ucGranularity, books, fun other range found => ?_, core.outcome⟩
    by_cases same : other = id
    · subst same
      simp at found
    · exact core.committed other range (by simpa [same] using found)

theorem deregister_same (rank : UbRank n) (id : Nat) :
    (rank.ncclNvlsUbDeregister id).phase = rank.phase ∧
      (rank.ncclNvlsUbDeregister id).arena.space = rank.arena.space ∧
      (rank.ncclNvlsUbDeregister id).gathers = rank.gathers ∧ (rank.ncclNvlsUbDeregister id).rounds = rank.rounds ∧
      (rank.ncclNvlsUbDeregister id).outcome = rank.outcome ∧
      (rank.ncclNvlsUbDeregister id).reclaimed = rank.reclaimed ∧
      rank.retired <+: (rank.ncclNvlsUbDeregister id).retired := by
  rw [ncclNvlsUbDeregister]
  split
  · exact ⟨rfl, rfl, rfl, rfl, rfl, rfl, prefix_rfl⟩
  · exact ⟨rfl, rfl, rfl, rfl, rfl, rfl, prefix_append _ _⟩

theorem RankInv.act (inv : RankInv comm isNull i rank) (act : UbRank.Act isNull rank rank') :
    RankInv comm isNull i rank' := by
  cases act with
  | deregister idle id =>
    have core := inv.core
    rw [idle] at core
    have idle' := (deregister_same rank id).1.trans idle
    refine ⟨?_, ?_⟩
    · rw [idle']
      exact core.deregister id
    · rw [idle']
      trivial
  | register idle args nulls contains =>
    have core := inv.core
    rw [idle] at core
    exact ⟨core.of_eq (fun _ => rfl) rfl rfl rfl core.outcome, nulls⟩

/-! ### The parts of a round -/

/-- A round ends. -/
theorem finish_inv (core : Core comm i rank []) (based : AllBased comm i mcAddr) :
    RankInv comm isNull i (rank.finish args mcAddr) :=
  ⟨core.of_eq (fun _ => rfl) rfl rfl rfl based, trivial⟩

/-- The plan stays true while registrations keep their extents and committed ranges. -/
theorem Planned.of_eq (planned : Planned comm isNull i rank state) (rounds : rank'.rounds = rank.rounds)
    (regs : ∀ id, (rank'.regs id).nvlsUbReg = (rank.regs id).nvlsUbReg ∧
      (rank'.regs id).begAddr = (rank.regs id).begAddr ∧ (rank'.regs id).endAddr = (rank.regs id).endAddr)
    (ucGranularity : rank'.arena.ucGranularity = rank.arena.ucGranularity) : Planned comm isNull i rank' state where
  __ := planned
  nulls := by rw [rounds]; exact planned.nulls
  slots := by
    intro role
    rw [planned.slots role, slotEligibility, slotEligibility]
    cases state.args.reg role with
    | none => rfl
    | some id => simp only [(regs id).1, (regs id).2.1, (regs id).2.2, ucGranularity]

theorem Planned.whole (planned : Planned comm isNull i rank state) (role : UbRole) :
    comm.alignment ∣ reqBindSize state.plan role := by
  rw [planned.plan, reqBindSize]
  split
  case isTrue new => exact planned.aligned ▸ (plan_new new.1).2
  · exact Nat.dvd_zero _

/-- A rank reserves and binds its ranges. -/
theorem bind_inv (core : Core comm i rank []) (planned : Planned comm isNull i rank state) :
    RankInv comm isNull i (rank.bindNewRanges state verdicts) := by
  have bound := bindNewRanges_spec core.books planned.whole verdicts
  have partition := bound.partition.trans core.partition
  refine ⟨⟨partition, bound.ucGranularity.trans core.ucGranularity, bound.books, ?_, core.outcome⟩, ?_, ?_⟩
  · intro id range found
    exact core.committed id range ((bound.regs id).1.symm.trans found)
  · exact planned.of_eq rfl bound.regs bound.ucGranularity
  · intro role reg found
    obtain ⟨new, owner, based⟩ := bound.reserved role reg found
    exact ⟨new, owner, by rw [Based, based, core.partition]⟩

/-! ### The exchange of the retired ranges -/

/-- The lists are complete after the last round. -/
theorem Exchanging.list_eq (exchanging : Exchanging comm i rank allEligibility round myRetired allRetired)
    (last : ¬ round < exchangeRounds comm allEligibility) :
    (allRetired i).take (allEligibility i).retiredCount = rank.arena.retiredQueue.map McArenaReg.retired := by
  have ends := exchanging.within.antisymm (Nat.not_lt.mp last)
  have enough : (allEligibility i).retiredCount ≤ exchangeRounds comm allEligibility * comm.entriesPerRound :=
    le_trans ((foldl_max _ 0).2.1 _ (mem_ofFn.mpr ⟨i, rfl⟩)) (le_divUp_mul comm.someEntry)
  rw [exchanging.count] at enough ⊢
  rw [exchanging.own, ends, take_take, min_eq_left enough, exchanging.snapshot, ncclMcArenaRetiredSnapshot,
    take_of_length_le enough]
  exact take_left' (length_map _)

/-- One more round of the exchange. -/
theorem Exchanging.next (exchanging : Exchanging comm i rank allEligibility round myRetired allRetired)
    (more : round < exchangeRounds comm allEligibility) {all : Fin (n + 1) → List McRetiredReg}
    (sent : all i = (myRetired.drop (round * comm.entriesPerRound)).take comm.entriesPerRound) :
    Exchanging comm i rank allEligibility (round + 1) myRetired fun other => allRetired other ++ all other where
  __ := exchanging
  own := by rw [exchanging.own, sent, add_mul, one_mul, take_add]
  within := more

/-- The ranges of which the lists say that all ranks retired them. -/
def sharedOf (allEligibility : Fin (n + 1) → UbEligibility) (allRetired : Fin (n + 1) → List McRetiredReg) :
    List McRetiredReg :=
  sharedRetired (fun other => (allEligibility other).retiredCount) allRetired

/-- Every rank has the shared ranges in its queue. -/
structure Shared (ranks : Fin (n + 1) → UbRank n) (shared : List McRetiredReg) : Prop where
  ordered : shared.Pairwise (·.offset < ·.offset)
  found : ∀ i, ∀ reg ∈ shared, ∃ node ∈ (ranks i).arena.retiredQueue, node.retired = reg

theorem shared_of_exchanging {myRetired : Fin (n + 1) → List McRetiredReg}
    (exchanging : ∀ i, Exchanging comm i (ranks i) allEligibility round (myRetired i) allRetired)
    (last : ¬ round < exchangeRounds comm allEligibility) :
    Shared ranks (sharedOf allEligibility allRetired) := by
  have lists := fun i => (exchanging i).list_eq last
  constructor
  · refine List.Pairwise.sublist sharedRetired_sublist ?_
    rw [lists, pairwise_map]
    exact (exchanging _).sorted
  · intro i reg member
    have listed := mem_sharedRetired member i
    rw [lists i] at listed
    exact mem_map.mp listed

/-- A rank reclaims what all have retired. -/
theorem reclaim_core (core : Core comm i rank []) (queue : (ranks i).arena.retiredQueue = rank.arena.retiredQueue)
    (shared : Shared ranks (sharedOf state.allEligibility allRetired)) :
    Core comm i (rank.reclaimRetired state allRetired) [] := by
  have found := shared.found i
  rw [queue] at found
  obtain ⟨ledger, -, -⟩ := Ledger.reclaim core.books shared.ordered found
  exact { core with books := ledger }

/-- The exchange goes on, or ends with the reclaim and the bind. -/
theorem exchange_inv (core : Core comm i rank []) (planned : Planned comm isNull i rank state)
    (exchanging : Exchanging comm i rank state.allEligibility round myRetired allRetired)
    (queue : (ranks i).arena.retiredQueue = rank.arena.retiredQueue)
    (shared : ¬ round < exchangeRounds comm state.allEligibility →
      Shared ranks (sharedOf state.allEligibility allRetired)) :
    RankInv comm isNull i (exchangeRetired comm rank state round myRetired allRetired verdicts) := by
  rw [exchangeRetired]
  split
  case isTrue more =>
    exact ⟨core.of_eq (fun _ => rfl) rfl rfl rfl core.outcome, planned.of_eq rfl (fun _ => ⟨rfl, rfl, rfl⟩) rfl,
      { exchanging with }, more⟩
  case isFalse last =>
    exact bind_inv (reclaim_core core queue (shared last)) (planned.of_eq rfl (fun _ => ⟨rfl, rfl, rfl⟩) rfl)

/-! ### The ends of a round -/

variable {newArenaRegs : UbRole → Option McArenaReg}

/-- A role with a new range has a registration without one, and a buffer. -/
theorem Planned.begins (planned : Planned comm isNull i rank state) (new : state.plan.action role = .newRange) :
    ∃ id, state.args.reg role = some id ∧ (rank.regs id).nvlsUbReg = none ∧
      state.args.buff role - (rank.regs id).begAddr = ((state.allEligibility 0).slot role).userOffset := by
  rw [planned.plan] at new
  have begins := (plan_new new).1 i
  have eligible := begins.eligible
  have uncommitted := begins.uncommitted
  have userOffset := begins.userOffset
  rw [planned.slots, slotEligibility] at eligible uncommitted userOffset
  cases isReg : state.args.reg role with
  | none =>
    rw [isReg] at eligible
    exact nomatch eligible
  | some id =>
    simp only [isReg] at eligible uncommitted userOffset
    split at eligible
    · exact nomatch eligible
    case isFalse buffer =>
      rw [if_neg buffer] at uncommitted userOffset
      exact ⟨id, rfl, by simpa using uncommitted, userOffset⟩

/-- A role whose range is reused has a registration that holds it. -/
theorem Planned.reuses (planned : Planned comm isNull i rank state) (reuse : state.plan.action role = .reuseRange) :
    ∃ id range, state.args.reg role = some id ∧ (rank.regs id).nvlsUbReg = some range ∧
      range.offset = ((state.allEligibility 0).slot role).arenaOffset ∧
      state.args.buff role - (rank.regs id).begAddr = ((state.allEligibility 0).slot role).userOffset := by
  rw [planned.plan] at reuse
  have reuses := plan_reuse reuse i
  have eligible := reuses.eligible
  have committed := reuses.committed
  have userOffset := reuses.userOffset
  have arenaOffset := reuses.arenaOffset
  rw [planned.slots, slotEligibility] at eligible committed userOffset arenaOffset
  cases isReg : state.args.reg role with
  | none =>
    rw [isReg] at eligible
    exact nomatch eligible
  | some id =>
    simp only [isReg] at eligible committed userOffset arenaOffset
    split at eligible
    · exact nomatch eligible
    case isFalse buffer =>
      rw [if_neg buffer] at committed userOffset arenaOffset
      obtain ⟨range, isRange⟩ := Option.isSome_iff_exists.mp committed
      rw [isRange] at arenaOffset
      exact ⟨id, range, rfl, isRange, arenaOffset, userOffset⟩

/-- The registrations after the commit. -/
def committedRegs (rank : UbRank n) (state : UbRegState n) (newArenaRegs : UbRole → Option McArenaReg) : Nat → UbReg :=
  commitRange state.args newArenaRegs (commitRange state.args newArenaRegs rank.regs .send) .recv

theorem commitRange_none {regs : Nat → UbReg} (absent : newArenaRegs role = none) :
    commitRange args newArenaRegs regs role = regs := by
  rw [commitRange, absent]
  cases args.reg role <;> rfl

theorem commit_regs (reserved : ∀ role reg, newArenaRegs role = some reg → state.plan.action role = .newRange) :
    (rank.commit state newArenaRegs).regs = committedRegs rank state newArenaRegs := by
  have absent : ∀ role, ¬ state.plan.action role = .newRange → newArenaRegs role = none := by
    intro role other
    by_contra present
    obtain ⟨reg, found⟩ := Option.ne_none_iff_exists'.mp present
    exact other (reserved role reg found)
  rw [UbRank.commit, committedRegs, UbRole.all]
  by_cases send : state.plan.action .send = .newRange
  · by_cases recv : state.plan.action .recv = .newRange
    · simp [send, recv]
    · simp [send, recv, commitRange_none (absent _ recv)]
  · by_cases recv : state.plan.action .recv = .newRange
    · simp [send, recv, commitRange_none (absent _ send)]
    · simp [send, recv, commitRange_none (absent _ send), commitRange_none (absent _ recv)]

/-- If both roles have a range of their own, so they have a registration. -/
theorem Planned.regs_ne (planned : Planned comm isNull i rank state)
    (send : state.plan.action .send = .newRange) (recv : state.plan.action .recv = .newRange)
    (own : state.plan.rangeOwner .recv = .recv) : state.args.reg .send ≠ state.args.reg .recv := by
  intro same
  obtain ⟨id, isReg, -⟩ := planned.begins send
  rw [planned.plan] at send recv own
  rw [plan_owner_recv send recv i, planned.aliased, ← same, isReg] at own
  simp at own

variable (reserved : ∀ role reg, newArenaRegs role = some reg → state.plan.action role = .newRange ∧
    state.plan.rangeOwner role = role ∧ Based comm i reg)
include reserved

theorem commit_core (core : Core comm i rank (rangesOf newArenaRegs UbRole.all))
    (planned : Planned comm isNull i rank state) : Core comm i (rank.commit state newArenaRegs) [] := by
  have regs : (rank.commit state newArenaRegs).regs = committedRegs rank state newArenaRegs :=
    commit_regs fun role reg found => (reserved role reg found).1
  have uncommitted : ∀ role, Uncommitted rank.regs state.args newArenaRegs role := by
    intro role range found
    obtain ⟨id, isReg, none, -⟩ := planned.begins (reserved role range found).1
    exact ⟨id, isReg, none⟩
  have first := commitRange_books core.books (uncommitted .send)
  have uncommitted' : Uncommitted (commitRange state.args newArenaRegs rank.regs .send) state.args newArenaRegs
      .recv := by
    intro range found
    obtain ⟨id, isReg, none⟩ := uncommitted .recv range found
    refine ⟨id, isReg, ?_⟩
    rcases commitRange_cases state.args newArenaRegs rank.regs .send id with kept | ⟨sent, isSend, foundSend, -⟩
    · exact kept.trans none
    · have differ := planned.regs_ne (reserved _ _ foundSend).1 (reserved _ _ found).1 (reserved _ _ found).2.1
      exact absurd (isSend.trans isReg.symm) differ
  have second := commitRange_books first uncommitted'
  refine ⟨core.partition, core.ucGranularity, ?_, ?_, core.outcome⟩
  · exact second.of_eq (fun id => by rw [regs]; rfl) rfl rfl rfl
  · rw [regs]
    have step : ∀ (regs : Nat → UbReg) (role : UbRole),
        (∀ id range, (regs id).nvlsUbReg = some range → Based comm i range) →
        ∀ id range, (commitRange state.args newArenaRegs regs role id).nvlsUbReg = some range →
          Based comm i range := by
      intro regs role all id range isRange
      rcases commitRange_cases state.args newArenaRegs regs role id with kept | ⟨new, -, isNew, gets⟩
      · exact all id range (kept.symm.trans isRange)
      · cases gets.symm.trans isRange
        exact (reserved role range isNew).2.2
    exact step _ .recv (step _ .send core.committed)

theorem newAddress_based (found : rank.newAddress state newArenaRegs role = some resolved) :
    Based comm i resolved.range := by
  obtain ⟨id, -, found⟩ := Option.bind_eq_some_iff.mp found
  obtain ⟨range, isNew, found⟩ := Option.bind_eq_some_iff.mp found
  cases found
  exact (reserved _ range isNew).2.2

/-- The ranges are committed, or disposed of. -/
theorem afterBinds_inv (core : Core comm i rank (rangesOf newArenaRegs UbRole.all))
    (planned : Planned comm isNull i rank state) (all : Fin (n + 1) → UbBindResult) :
    RankInv comm isNull i (rank.afterBinds state newArenaRegs all) := by
  rw [afterBinds]
  split
  · refine finish_inv (commit_core reserved core planned) fun role resolved found => ?_
    split at found
    · exact newAddress_based reserved found
    · exact planned.based role resolved found
  case h_2 rangeState _ =>
    have disposed := dispose_spec rangeState newArenaRegs UbRole.all rank
    refine finish_inv ⟨disposed.partition.trans core.partition, disposed.ucGranularity.trans core.ucGranularity,
      dispose_books core.books, ?_, ?_⟩ planned.based
    · rw [disposed.regs]
      exact core.committed
    · rw [disposed.outcome]
      exact core.outcome

end NcclCore.NvlsUbProofs
