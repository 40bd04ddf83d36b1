import NcclCore.NvlsUbAgreementProofs

/-! The arenas of the local ranks stay identical, whatever each rank registers, gives up or
fails to bind, and however far one is ahead of another. -/
namespace NcclCore.NvlsUbProofs
open Lib SpaceProofs McArenaProofs List UbRank
variable {n : Nat} {comm : UbComm n} {i j : Fin (n + 1)} {rank rank' : UbRank n} {ranks : Fin (n + 1) → UbRank n}
  {all : Fin (n + 1) → UbPayload} {round : Nat}

/-! ### Who holds what -/

/-- The space is filled by the ranges of the owners, which are apart. -/
structure Partitioned (rank : UbRank n) : Prop where
  covers : ∀ x, Covered rank.arena.space x ↔ ∃ owner range, rank.held owner = some range ∧ InRange range x
  apart : ∀ owner owner' range range', owner ≠ owner' → rank.held owner = some range → rank.held owner' = some range' →
    Apart range range'

theorem filterMap_getElem? (l : List α) (f : α → β) : (range l.length).filterMap (fun i => l[i]?.map f) = l.map f := by
  induction l with
  | nil => rfl
  | cons a l ih =>
    rw [length_cons, range_succ_eq_map, filterMap_cons, filterMap_map]
    exact congrArg (f a :: ·) ih

theorem Books.partitioned (books : Books alignment rank []) : Partitioned rank := by
  obtain ⟨ids, once, complete, holds⟩ := books.held
  let owners := ids.map UbOwner.committed ++ (range rank.arena.retiredQueue.length).map UbOwner.retired
  have isOwner : ∀ {owner range}, rank.held owner = some range → owner ∈ owners := by
    intro owner range found
    cases owner with
    | committed id =>
      obtain ⟨reg, isReg, -⟩ := Option.map_eq_some_iff.mp found
      exact mem_append_left _ (mem_map_of_mem ((complete id).mpr (by simp [isReg])))
    | retired =>
      obtain ⟨reg, isReg, -⟩ := Option.map_eq_some_iff.mp found
      exact mem_append_right _ (mem_map_of_mem (mem_range.mpr (List.getElem?_eq_some_iff.mp isReg).1))
  have ranges : rangesOf (fun id => (rank.regs id).nvlsUbReg) ids ++ ([] ++ queued rank.arena) =
      owners.filterMap rank.held := by
    rw [filterMap_append, filterMap_map, filterMap_map]
    exact congrArg (_ ++ ·) (filterMap_getElem? _ _).symm
  rw [ranges] at holds
  constructor
  · intro x
    rw [holds.covered_iff]
    simp only [mem_filterMap]
    constructor
    · rintro ⟨range, ⟨owner, -, found⟩, inside⟩
      exact ⟨owner, range, found, inside⟩
    · rintro ⟨owner, range, found, inside⟩
      exact ⟨range, ⟨owner, isOwner found, found⟩, inside⟩
  · intro owner owner' range range' differ found found'
    have : Std.Symm fun owner owner' => ∀ range, rank.held owner = some range →
        ∀ range', rank.held owner' = some range' → Apart range range' :=
      ⟨fun _ _ apart range is range' is' => Or.symm (apart range' is' range is)⟩
    exact (pairwise_filterMap.mp holds.fills.apart).forall (isOwner found)
      (isOwner found') differ range found range' found'

/-! ### What is reclaimed -/

/-- What a rank has retired is in its queue or has been reclaimed. -/
theorem Books.count_retired (books : Books alignment rank pending) (range : Nat × Nat) :
    rank.retired.count range = rank.reclaimed.count range + (queued rank.arena).count range := by
  rw [books.log.count_eq, count_append]

/-- A rank has reclaimed more, which all ranks had in their queues, and it may have retired
more. -/
structure Noted (ranks : Fin (n + 1) → UbRank n) (rank rank' : UbRank n) : Prop where
  reclaimed : ∃ gone, rank'.reclaimed = rank.reclaimed ++ gone ∧
    ∀ j range, gone.count range ≤ (queued (ranks j).arena).count range
  retired : rank.retired <+: rank'.retired

theorem Noted.of_eq (reclaimed : rank'.reclaimed = rank.reclaimed) (retired : rank.retired <+: rank'.retired) :
    Noted ranks rank rank' :=
  ⟨⟨[], by simp [reclaimed], by simp⟩, retired⟩

theorem Noted.gathered (gather : UbGather) (noted : Noted ranks (rank.gathered gather) rank') : Noted ranks rank rank' :=
  ⟨noted.reclaimed, noted.retired⟩

theorem Shared.count_le (all : Shared ranks shared) (j : Fin (n + 1)) (range : Nat × Nat) :
    (shared.map McRetiredReg.range).count range ≤ (queued (ranks j).arena).count range := by
  have once : (shared.map McRetiredReg.range).Nodup := by
    refine pairwise_map.mpr (all.ordered.imp fun less same => ?_)
    have := congrArg Prod.fst same
    simp only [McRetiredReg.range] at this
    omega
  refine (subperm_of_subset once fun other member => ?_).count_le range
  obtain ⟨reg, isShared, rfl⟩ := mem_map.mp member
  obtain ⟨node, isNode, rfl⟩ := all.found j reg isShared
  exact mem_map_of_mem isNode

theorem exchange_noted (core : Core comm i rank [])
    (queue : (ranks i).arena.retiredQueue = rank.arena.retiredQueue)
    (shared : ¬ round < exchangeRounds comm state.allEligibility →
      Shared ranks (sharedOf state.allEligibility allRetired)) :
    Noted ranks rank (exchangeRetired comm rank state round myRetired allRetired verdicts) := by
  rw [exchangeRetired]
  split
  · exact .of_eq rfl prefix_rfl
  case isFalse last =>
    have all := shared last
    have found := all.found i
    rw [queue] at found
    obtain ⟨-, freed, -⟩ := Ledger.reclaim core.books all.ordered found
    refine ⟨⟨(sharedOf state.allEligibility allRetired).map McRetiredReg.range, ?_, all.count_le⟩, prefix_rfl⟩
    exact congrArg (rank.reclaimed ++ ·) freed

theorem resume_noted (offered : (comm.gathering isNull).Offered (RankInv comm isNull) viewOf ranks all)
    (resumes : Resume comm (ranks i) all rank') : Noted ranks (ranks i) rank' := by
  cases meeting offered with
  | eligibility args phase =>
    obtain ⟨verdicts, rfl⟩ := resume_eligibility (phase i) resumes
    rw [afterEligibility]
    split
    · split
      · exact .gathered .eligibility
          (exchange_noted (eligibility_core offered.inv phase i) rfl (eligibility_shared offered.inv phase))
      · exact .of_eq rfl prefix_rfl
    · exact .of_eq rfl prefix_rfl
  | retired state round myRetired allRetired phase settled =>
    obtain ⟨verdicts, rfl⟩ := resume_retired (phase i) resumes
    exact .gathered (.retired round)
      (exchange_noted (retired_core offered.inv phase i) rfl (retired_shared offered.inv phase settled i))
  | binds state newArenaRegs phase settled ranges =>
    rw [resume_binds (phase i) resumes, afterBinds]
    split
    · exact .of_eq rfl prefix_rfl
    case h_2 rangeState _ =>
      have disposed := dispose_spec rangeState (newArenaRegs i) UbRole.all ((ranks i).gathered .binds)
      exact .of_eq disposed.reclaimed disposed.retired

theorem acts_noted (acted : Relation.ReflTransGen (UbRank.Act isNull) rank rank') :
    rank'.reclaimed = rank.reclaimed ∧ rank.retired <+: rank'.retired := by
  induction acted with
  | refl => exact ⟨rfl, prefix_rfl⟩
  | tail _ act ih =>
    cases act with
    | deregister idle id =>
      obtain ⟨-, -, -, -, -, reclaimed, retired⟩ := deregister_same _ id
      exact ⟨reclaimed.trans ih.1, ih.2.trans retired⟩
    | register => exact ih

theorem since_noted (offered : (comm.gathering isNull).Offered (RankInv comm isNull) viewOf ranks all)
    {place : Gathering.Place (Fin (n + 1)) (UbRank n) UbPayload}
    (since : (comm.gathering isNull).Since (ranks i) all i place) : Noted ranks (ranks i) place.state := by
  cases since with
  | waits => exact .of_eq rfl prefix_rfl
  | runs resumed acted =>
    have noted := resume_noted offered resumed
    obtain ⟨reclaimed, retired⟩ := acts_noted acted
    obtain ⟨gone, more, queued⟩ := noted.reclaimed
    exact ⟨⟨gone, reclaimed.trans more, queued⟩, noted.retired.trans retired⟩

/-- What any rank has reclaimed, every rank has retired before. -/
theorem reclaimed_le_retired (synced : (comm.gathering isNull).Synced (RankInv comm isNull) viewOf config)
    (range : Nat × Nat) : (config i).state.reclaimed.count range ≤ (config j).state.retired.count range := by
  cases synced with
  | first states holds views run =>
    rw [run i, run j]
    have same := (viewOf_eq_iff.mp (views i j)).2.reclaimed
    have count := (holds j).core.books.count_retired range
    simp only [Gathering.Place.state, same]
    omega
  | later ranks all offered since =>
    obtain ⟨gone, more, inQueue⟩ := (since_noted offered (since i)).reclaimed
    have retired := (since_noted offered (since j)).retired.sublist.count_le range
    have same := (viewOf_eq_iff.mp (offered.views i j)).2.reclaimed
    have count := (offered.inv j).core.books.count_retired range
    have bound := inQueue j range
    rw [more, count_append, same]
    omega

/-! ### The ranks -/

/-- A rank that has the result of an all-gather can go on. -/
theorem exists_resume (offered : (comm.gathering isNull).Offered (RankInv comm isNull) viewOf ranks all)
    (i : Fin (n + 1)) : ∃ rank', Resume comm (ranks i) all rank' := by
  cases meeting offered with
  | eligibility args phase => exact ⟨_, .eligibility (phase i) _ fun _ => .ok⟩
  | retired state round myRetired allRetired phase settled => exact ⟨_, .retired (phase i) _ fun _ => .ok⟩
  | binds state newArenaRegs phase settled ranges => exact ⟨_, .binds (phase i) _⟩

theorem nextGather_eq (stage : stageOf rank.phase = stageOf rank'.phase) : rank.nextGather = rank'.nextGather := by
  have shown : ∀ rank : UbRank n, rank.nextGather = match stageOf rank.phase with
      | .start => .eligibility
      | .retired _ round _ => .retired round
      | .binds _ _ => .binds := by
    intro rank
    rw [nextGather]
    cases rank.phase <;> rfl
  rw [shown rank, shown rank', stage]

/-- Ranks that have returned from as many all-gathers have been through the same ones and
make the same one next, and they have equal spaces. What the last round resolved for a
role on one of them, it resolved on the other, at the same offset of the arena and of the
buffer. Between rounds the allocated set is the disjoint union of the committed and the
retired ranges. A reclaim frees a range only if every rank has retired it, as often as it
is freed. And a rank can go on from every all-gather. -/
theorem nvls_arenas_identical (comm : UbComm n) (isNull : Nat → UbRole → Bool) (extent : Fin (n + 1) → Nat → Nat × Nat)
    (reachable : (comm.gathering isNull).Reachable (fun i => UbRank.init comm i (extent i)) config) :
    (∀ i j rank rank', config i = .running rank → config j = .running rank' →
      rank.gathers = rank'.gathers ∧ rank.nextGather = rank'.nextGather ∧ rank.rounds = rank'.rounds ∧
      rank.arena.space = rank'.arena.space ∧
      ∀ role resolved, rank.outcome.mcAddr role = some resolved →
        ∃ resolved', rank'.outcome.mcAddr role = some resolved' ∧ resolved'.range.offset = resolved.range.offset ∧
          resolved'.userOffset = resolved.userOffset ∧
          resolved'.address = (comm.partition j).ptr + resolved.range.offset + resolved.userOffset) ∧
    (∀ i rank, config i = .running rank → (rank.phase = .idle ∨ ∃ args, rank.phase = .eligibility args) →
      Partitioned rank) ∧
    (∀ i j range, (config i).state.reclaimed.count range ≤ (config j).state.retired.count range) ∧
    ∀ i rank all, config i = .gathered rank all → ∃ rank', Resume comm rank all rank' := by
  have synced := agreeing.synced_of_reachable (fun i => RankInv.init comm isNull i (extent i)) (fun _ _ => rfl) reachable
  refine ⟨?_, ?_, fun i j range => reclaimed_le_retired synced range, ?_⟩
  · intro i j rank rank' runs runs'
    obtain ⟨stage, alike⟩ := viewOf_eq_iff.mp (agreeing.running_view synced runs runs')
    refine ⟨alike.gathers, nextGather_eq stage, alike.rounds, alike.space, fun role resolved found => ?_⟩
    have offsets := congrFun alike.offsets role
    rw [offsetsOf, found] at offsets
    obtain ⟨resolved', found', same⟩ := Option.map_eq_some_iff.mp offsets.symm
    obtain ⟨arenaOffset, userOffset⟩ := Prod.mk.inj same
    have based := (agreeing.running_inv synced runs').core.outcome role resolved' found'
    refine ⟨resolved', found', arenaOffset, userOffset, ?_⟩
    rw [UbMcAddress.address, based, arenaOffset, userOffset]
  · intro i rank runs between
    have core := (agreeing.running_inv synced runs).core
    have nothing : pendingOf rank.phase = [] := by
      rcases between with idle | ⟨args, waits⟩
      · rw [idle]
        rfl
      · rw [waits]
        rfl
    rw [nothing] at core
    exact core.books.partitioned
  · intro i rank all waits
    cases synced with
    | first states holds views run => cases (run i).symm.trans waits
    | later ranks all' offered since =>
      have place := since i
      rw [waits] at place
      cases place with
      | waits => exact exists_resume offered i

/-! Two ranks with different granularities and addresses go through one round, in which they
bind a new range for the send buffer. -/

section
variable {net : Gathering (Fin 2) State Payload} {init states states' : Fin 2 → State}

theorem update_pair (before after : Fin 2 → α) :
    Function.update (Function.update before 0 (after 0)) 1 (after 1) = after :=
  funext fun i => match i with
    | 0 => rfl
    | 1 => rfl

theorem reachable_acts (reachable : net.Reachable init fun i => .running (states i))
    (acts : ∀ i, net.act i (states i) (states' i)) : net.Reachable init fun i => .running (states' i) := by
  rw [← update_pair (fun i => .running (states i)) fun i => Gathering.Place.running (states' i)]
  exact (reachable.tail (.act 0 rfl (acts 0))).tail (.act 1 rfl (acts 1))

theorem reachable_gather (all : Fin 2 → Payload) (reachable : net.Reachable init fun i => .running (states i))
    (offers : ∀ i, net.offer (states i) = some (all i)) (resumes : ∀ i, net.resume i (states i) all (states' i)) :
    net.Reachable init fun i => .running (states' i) := by
  rw [← update_pair (fun i => .gathered (states i) all) fun i => Gathering.Place.running (states' i)]
  exact ((reachable.tail (.gather states all offers)).tail (.resume 0 rfl (resumes 0))).tail (.resume 1 rfl (resumes 1))

end

namespace Pair

def twoRanks : UbComm 1 where
  partition := fun i => ⟨1000 * (i + 1), 16, 2⟩
  ucGranularity := fun i => 4 * (i + 1)
  size := 16
  entriesPerRound := 8
  sameSize := fun _ => rfl
  minPower := fun _ => ⟨1, rfl⟩
  ucPower := fun i => match i with
    | 0 => ⟨2, rfl⟩
    | 1 => ⟨3, rfl⟩
  someEntry := by decide

def onlySend (_ : Nat) (role : UbRole) : Bool := role = .recv

section
variable (i : Fin 2)

def extent (_ : Nat) : Nat × Nat := (64 * (i + 1), 64 * (i + 1) + 8)

def args : UbArgs where
  buff := fun role => if role = .send then 64 * (i + 1) + 2 else 0
  reg := fun role => if role = .send then some 0 else none
  size := fun _ => 4

def called : UbRank 1 := { UbRank.init twoRanks i (extent i) with phase := .eligibility (args i) }

def allEligibility : UbEligibility := (called i).myEligibility (args i)

def state : UbRegState 1 := ((called i).gathered .eligibility).settle (args i) allEligibility

def bound : UbRank 1 := ((called i).gathered .eligibility).bindNewRanges (state i) fun _ => .ok

def arenaRegs : UbRole → Option McArenaReg :=
  newRegs ((called i).gathered .eligibility) (state i).plan fun _ => .ok

def done : UbRank 1 :=
  ((bound i).gathered .binds).afterBinds (state i) (arenaRegs i) fun j => myBindResult (arenaRegs j)

end

theorem reachable_done :
    (twoRanks.gathering onlySend).Reachable (fun i => UbRank.init twoRanks i (extent i)) fun i => .running (done i) := by
  have reachable : (twoRanks.gathering onlySend).Reachable (fun i => UbRank.init twoRanks i (extent i))
      fun i => .running (UbRank.init twoRanks i (extent i)) := .refl
  have calls : (twoRanks.gathering onlySend).Reachable (fun i => UbRank.init twoRanks i (extent i))
      fun i => .running (called i) := by
    refine reachable_acts reachable fun i => .register rfl (args i) ?_ ?_
    · intro role
      cases role <;> simp [args, onlySend]
    · intro role id isReg buffer
      cases role <;> simp [args, extent, UbRank.init] at isReg buffer ⊢
  have binds : (twoRanks.gathering onlySend).Reachable (fun i => UbRank.init twoRanks i (extent i))
      fun i => .running (bound i) := by
    refine reachable_gather (fun i => .eligibility (allEligibility i)) calls (fun _ => rfl) fun i => ?_
    have next : bound i =
        ((called i).gathered .eligibility).afterEligibility twoRanks (args i) allEligibility fun _ => .ok := by
      revert i
      exact Fin.forall_fin_two.mpr ⟨rfl, rfl⟩
    rw [next]
    exact .eligibility rfl allEligibility fun _ => .ok
  exact reachable_gather (fun i => .binds (myBindResult (arenaRegs i))) binds (fun _ => rfl)
    fun i => .binds rfl _

end Pair

theorem nvls_arenas_identical_pair :
    (Pair.done 0).phase = .idle ∧ (Pair.done 0).arena.space = [8] ∧
      (Pair.done 0).outcome.mcAddr .send = some ⟨⟨0, 8, 1000, true⟩, 2⟩ ∧ (Pair.done 1).arena.space = [8] ∧
      ∃ resolved, (Pair.done 1).outcome.mcAddr .send = some resolved ∧ resolved.address = 2002 := by
  have phase : (Pair.done 0).phase = .idle := by rfl
  have space : (Pair.done 0).arena.space = [8] := by decide +kernel
  have found : (Pair.done 0).outcome.mcAddr .send = some ⟨⟨0, 8, 1000, true⟩, 2⟩ := by decide +kernel
  obtain ⟨-, -, -, spaces, resolves⟩ :=
    (nvls_arenas_identical Pair.twoRanks Pair.onlySend Pair.extent Pair.reachable_done).1 0 1 _ _ rfl rfl
  obtain ⟨resolved, found', -, -, address⟩ := resolves .send _ found
  exact ⟨phase, space, found, spaces ▸ space, resolved, found', address⟩

end NcclCore.NvlsUbProofs
