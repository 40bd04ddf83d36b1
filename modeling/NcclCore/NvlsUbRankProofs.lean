import NcclCore.NvlsUbPlanProofs

/-! One rank: its arena holds the ranges of the committed registrations, those it is about
to commit, and the retired ones. Each part of a round is described by how it moves ranges
between the three, and two ranks with the same space that move the same ranges have the same
space again. -/
namespace NcclCore.NvlsUbProofs
open Lib SpaceProofs McArenaProofs Function List UbRank
variable {n : Nat} {alignment : Nat} {pending pending' retired reclaimed : List (Nat × Nat)} {arena arena' : McArena}
  {committed committed' : Nat → Option McArenaReg} {range : McArenaReg} {id : Nat}

/-- The ranges of the queue. -/
def queued (arena : McArena) : List (Nat × Nat) := arena.retiredQueue.map McArenaReg.range

/-- The arena is filled by the committed, pending and retired ranges; what was retired is in
the queue or has been reclaimed. -/
structure Ledger (alignment : Nat) (committed : Nat → Option McArenaReg) (arena : McArena)
    (retired reclaimed pending : List (Nat × Nat)) : Prop where
  held : ∃ ids : List Nat, ids.Nodup ∧ (∀ id, id ∈ ids ↔ (committed id).isSome = true) ∧
    Holds alignment arena (rangesOf committed ids ++ (pending ++ queued arena))
  sorted : Sorted arena.retiredQueue
  log : retired.Perm (reclaimed ++ queued arena)

namespace Ledger

/-- A pending range lies apart from the retired ones. -/
theorem offset_ne (ledger : Ledger alignment committed arena retired reclaimed pending)
    (member : range.range ∈ pending) (isNode : node ∈ arena.retiredQueue) : node.offset ≠ range.offset := by
  obtain ⟨ids, -, -, holds⟩ := ledger.held
  have inner := (pairwise_append.mp holds.fills.apart).2.1
  have isQueued : node.range ∈ queued arena := mem_map_of_mem isNode
  have apart := (pairwise_append.mp inner).2.2 _ member _ isQueued
  have some := holds.fills.nonempty range.range (by simp [member])
  have some' := holds.fills.nonempty node.range (by simp [isQueued])
  simp only [Apart, McArenaReg.range] at apart some some'
  omega

section
variable (ledger : Ledger alignment committed arena retired reclaimed (range.range :: pending))
include ledger

/-- A pending range is retired. -/
theorem retire :
    Ledger alignment committed (ncclMcArenaRetireReg arena range) (retired ++ [range.range]) reclaimed pending := by
  obtain ⟨ids, once, complete, holds⟩ := ledger.held
  have moved : (queued (ncclMcArenaRetireReg arena range)).Perm (range.range :: queued arena) :=
    (insertSorted_perm _ _).map McArenaReg.range
  have holds' : Holds alignment (ncclMcArenaRetireReg arena range) _ := holds.congr rfl rfl
  refine ⟨⟨ids, once, complete, holds'.perm (.append_left _ ?_)⟩, ?_, ?_⟩
  · exact perm_middle.symm.trans (moved.symm.append_left pending)
  · exact insertSorted_sorted ledger.sorted fun node member => ledger.offset_ne mem_cons_self member
  · have noted := ledger.log.append_right [range.range]
    rw [append_assoc] at noted
    exact noted.trans (((perm_append_singleton _ _).trans moved.symm).append_left _)

/-- A pending range goes back to the space. -/
theorem deregister :
    Ledger alignment committed (ncclMcArenaDeregister arena range) retired reclaimed pending := by
  obtain ⟨ids, once, complete, holds⟩ := ledger.held
  exact ⟨⟨ids, once, complete, holds.deregister perm_middle⟩, ledger.sorted, ledger.log⟩

end

theorem rangesOf_update (value : Option McArenaReg) (away : id ∉ ids) :
    rangesOf (update committed id value) ids = rangesOf committed ids := by
  refine rangesOf_congr fun other member => ?_
  have differ : other ≠ id := fun same => away (same ▸ member)
  rw [update_of_ne differ]

/-- A pending range is committed to a registration that has none. -/
theorem commit (ledger : Ledger alignment committed arena retired reclaimed (range.range :: pending))
    (uncommitted : committed id = none) :
    Ledger alignment (update committed id (some range)) arena retired reclaimed pending := by
  obtain ⟨ids, once, complete, holds⟩ := ledger.held
  have away : id ∉ ids := fun member => by simpa [uncommitted] using (complete id).mp member
  refine ⟨⟨id :: ids, nodup_cons.mpr ⟨away, once⟩, fun other => ?_, ?_⟩, ledger.sorted, ledger.log⟩
  · by_cases same : other = id
    · subst same
      simp
    · simp [same, complete]
  · have ranges : rangesOf (update committed id (some range)) (id :: ids) =
        range.range :: rangesOf committed ids := by
      rw [← rangesOf_update (some range) away, rangesOf, filterMap_cons_some (by rw [update_self]; rfl)]
      rfl
    rw [ranges]
    exact holds.perm perm_middle

section
variable (ledger : Ledger alignment committed arena retired reclaimed pending)
include ledger

/-- A registration lets go of its range. -/
theorem release (isRange : committed id = some range) :
    Ledger alignment (update committed id none) arena retired reclaimed (range.range :: pending) := by
  obtain ⟨ids, once, complete, holds⟩ := ledger.held
  have member : id ∈ ids := (complete id).mpr (by simp [isRange])
  obtain ⟨away, once'⟩ := nodup_cons.mp ((perm_cons_erase member).nodup once)
  refine ⟨⟨ids.erase id, once', fun other => ?_, ?_⟩, ledger.sorted, ledger.log⟩
  · by_cases same : other = id
    · subst same
      simpa using away
    · simp [same, complete]
  · have split : (rangesOf committed ids).Perm (range.range :: rangesOf committed (ids.erase id)) := by
      refine ((perm_cons_erase member).filterMap _).trans ?_
      rw [filterMap_cons_some (by rw [isRange]; rfl)]
      exact .refl _
    rw [rangesOf_update _ away]
    exact holds.perm ((split.append_right _).trans perm_middle.symm)

/-- A reclaim of ranges that are in the queue takes them out of it. -/
theorem reclaim (ordered : shared.Pairwise (·.offset < ·.offset))
    (found : ∀ reg ∈ shared, ∃ node ∈ arena.retiredQueue, node.retired = reg) :
    Ledger alignment committed (ncclMcArenaReclaim arena shared).1 retired
        (reclaimed ++ (ncclMcArenaReclaim arena shared).2.map McArenaReg.range) pending ∧
      (ncclMcArenaReclaim arena shared).2.map McArenaReg.range = shared.map McRetiredReg.range ∧
      ∀ x, Covered (ncclMcArenaReclaim arena shared).1.space x ↔
        Covered arena.space x ∧ ¬ ∃ range ∈ shared.map McRetiredReg.range, InRange range x := by
  obtain ⟨ids, once, complete, holds⟩ := ledger.held
  have order (queue) : (rangesOf committed ids ++ (pending ++ queue)).Perm
      (queue ++ (rangesOf committed ids ++ pending)) := by
    rw [← append_assoc]
    exact perm_append_comm
  obtain ⟨rest, sublist, freed, parts⟩ := reclaimWalk_spec ledger.sorted (holds.perm (order _)) ordered found
  have ranges : (ncclMcArenaReclaim arena shared).2.map McArenaReg.range = shared.map McRetiredReg.range := by
    conv_rhs => rw [← freed]
    rw [map_map]
    rfl
  have kept : Holds alignment (ncclMcArenaReclaim arena shared).1
      (queued (ncclMcArenaReclaim arena shared).1 ++ (rangesOf committed ids ++ pending)) := rest.congr rfl rfl
  have parts' : (queued arena).Perm
      ((ncclMcArenaReclaim arena shared).2.map McArenaReg.range ++ queued (ncclMcArenaReclaim arena shared).1) := by
    rw [queued, queued, ← map_append]
    exact parts.map McArenaReg.range
  refine ⟨⟨⟨ids, once, complete, kept.perm (order _).symm⟩, ledger.sorted.sublist sublist, ?_⟩, ranges, fun x => ?_⟩
  · rw [append_assoc]
    exact ledger.log.trans (parts'.append_left _)
  · rw [← ranges]
    refine (holds.perm (order _)).covered_rest kept ?_ x
    rw [← append_assoc (map _ _)]
    exact parts'.append_right _

end

/-- Arenas with the same space that give back the same range have the same space. -/
theorem deregister_agree {range' : McArenaReg}
    (ledger : Ledger alignment committed arena retired reclaimed (range.range :: pending))
    (ledger' : Ledger alignment committed' arena' retired' reclaimed' (range'.range :: pending'))
    (same : range.range = range'.range) (space : arena.space = arena'.space) :
    (ncclMcArenaDeregister arena range).space = (ncclMcArenaDeregister arena' range').space := by
  obtain ⟨ids, -, -, holds⟩ := ledger.held
  obtain ⟨ids', -, -, holds'⟩ := ledger'.held
  have rest := holds.deregister perm_middle
  have rest' := holds'.deregister perm_middle
  have gone : ∀ x, Covered (ncclMcArenaDeregister arena range).space x ↔
      Covered arena.space x ∧ ¬ ∃ other ∈ [range.range], InRange other x :=
    holds.covered_rest rest perm_middle
  have gone' : ∀ x, Covered (ncclMcArenaDeregister arena' range').space x ↔
      Covered arena'.space x ∧ ¬ ∃ other ∈ [range'.range], InRange other x :=
    holds'.covered_rest rest' perm_middle
  exact rest.space_eq rest' fun x => by rw [gone, gone', space, same]

end Ledger

variable {rank rank' : UbRank n}

/-- The ledger of a rank. -/
def Books (alignment : Nat) (rank : UbRank n) (pending : List (Nat × Nat)) : Prop :=
  Ledger alignment (fun id => (rank.regs id).nvlsUbReg) rank.arena rank.retired rank.reclaimed pending

theorem nvlsUbReg_update (regs : Nat → UbReg) (id : Nat) (value : Option McArenaReg) :
    (fun other => (update regs id { regs id with nvlsUbReg := value } other).nvlsUbReg) =
      update (fun other => (regs other).nvlsUbReg) id value := by
  funext other
  by_cases same : other = id
  · subst same
    simp
  · simp [same]

theorem Books.of_eq (books : Books alignment rank pending)
    (regs : ∀ id, (rank'.regs id).nvlsUbReg = (rank.regs id).nvlsUbReg) (arena : rank'.arena = rank.arena)
    (retired : rank'.retired = rank.retired) (reclaimed : rank'.reclaimed = rank.reclaimed) :
    Books alignment rank' pending := by
  have regs := funext regs
  rw [Books, regs, arena, retired, reclaimed]
  exact books

/-- `ncclNvlsUbDeregister` moves a committed range to the retired ones. -/
theorem Books.deregister (books : Books alignment rank pending) (id : Nat) :
    Books alignment (rank.ncclNvlsUbDeregister id) pending := by
  rw [ncclNvlsUbDeregister]
  split
  · exact books
  case h_2 range isRange =>
    have released := Ledger.release books isRange
    rw [← nvlsUbReg_update] at released
    exact released.retire

/-! ### The ranges of a round -/

section
variable {newArenaRegs newArenaRegs' : UbRole → Option McArenaReg} {role : UbRole}

theorem rangesOf_cons (newArenaRegs : UbRole → Option McArenaReg) (role : UbRole) (roles : List UbRole) :
    rangesOf newArenaRegs (role :: roles) =
      ((newArenaRegs role).map McArenaReg.range).toList ++ rangesOf newArenaRegs roles := by
  cases found : newArenaRegs role <;> simp [rangesOf, found]

theorem disposeRange_books (books : Books alignment rank (rangesOf newArenaRegs (role :: roles))) :
    Books alignment (rank.disposeRange rangeState newArenaRegs role) (rangesOf newArenaRegs roles) := by
  rw [rangesOf_cons] at books
  rw [disposeRange]
  cases found : newArenaRegs role with
  | none => simpa [found] using books
  | some =>
    rw [found] at books
    dsimp only
    split
    · exact Ledger.deregister books
    · exact Ledger.retire books

theorem dispose_books (books : Books alignment rank (rangesOf newArenaRegs roles)) :
    Books alignment (roles.foldl (disposeRange rangeState newArenaRegs) rank) [] := by
  induction roles generalizing rank with
  | nil => exact books
  | cons role roles ih => exact ih (disposeRange_books books)

/-- What disposing does not touch. -/
structure Disposed (rank rank' : UbRank n) : Prop where
  regs : rank'.regs = rank.regs
  partition : rank'.arena.partition = rank.arena.partition
  ucGranularity : rank'.arena.ucGranularity = rank.arena.ucGranularity
  gathers : rank'.gathers = rank.gathers
  rounds : rank'.rounds = rank.rounds
  outcome : rank'.outcome = rank.outcome
  reclaimed : rank'.reclaimed = rank.reclaimed
  retired : rank.retired <+: rank'.retired

theorem dispose_spec (rangeState : UbRole → UbRangeState) (newArenaRegs : UbRole → Option McArenaReg)
    (roles : List UbRole) (rank : UbRank n) :
    Disposed rank (roles.foldl (disposeRange rangeState newArenaRegs) rank) := by
  refine roles.foldlRecOn _ ⟨rfl, rfl, rfl, rfl, rfl, rfl, rfl, prefix_rfl⟩ fun before kept role _ => ?_
  rw [disposeRange]
  split
  · exact kept
  · split
    · exact { kept with }
    · exact { kept with retired := kept.retired.trans (prefix_append _ _) }

/-- Ranks that dispose of the same ranges keep the same space. -/
theorem dispose_agree (books : Books alignment rank (rangesOf newArenaRegs roles))
    (books' : Books alignment rank' (rangesOf newArenaRegs' roles))
    (ranges : ∀ role, (newArenaRegs role).map McArenaReg.range = (newArenaRegs' role).map McArenaReg.range)
    (space : rank.arena.space = rank'.arena.space) :
    (roles.foldl (disposeRange rangeState newArenaRegs) rank).arena.space =
      (roles.foldl (disposeRange rangeState newArenaRegs') rank').arena.space := by
  induction roles generalizing rank rank' with
  | nil => exact space
  | cons role roles ih =>
    refine ih (disposeRange_books books) (disposeRange_books books') ?_
    have same := ranges role
    rw [rangesOf_cons] at books books'
    rw [disposeRange, disposeRange]
    cases found : newArenaRegs role with
    | none =>
      cases found' : newArenaRegs' role with
      | none => exact space
      | some => simp [found, found'] at same
    | some range =>
      cases found' : newArenaRegs' role with
      | none => simp [found, found'] at same
      | some range' =>
        rw [found] at books
        rw [found'] at books'
        have same : range.range = range'.range := by simpa [found, found'] using same
        dsimp only
        split
        · exact Ledger.deregister_agree books books' same space
        · exact space

/-- Only the registration of the role changes, and it gets the new range. -/
theorem commitRange_cases (args : UbArgs) (newArenaRegs : UbRole → Option McArenaReg)
    (regs : Nat → UbReg) (role : UbRole)
    (id : Nat) :
    (commitRange args newArenaRegs regs role id).nvlsUbReg = (regs id).nvlsUbReg ∨
      ∃ range, args.reg role = some id ∧ newArenaRegs role = some range ∧
        (commitRange args newArenaRegs regs role id).nvlsUbReg = some range := by
  rw [commitRange]
  cases isReg : args.reg role with
  | none => exact .inl rfl
  | some other =>
    cases isNew : newArenaRegs role with
    | none => exact .inl rfl
    | some range =>
      dsimp only
      by_cases same : id = other
      · subst same
        exact .inr ⟨range, rfl, rfl, by rw [update_self]⟩
      · rw [update_of_ne same]
        exact .inl rfl

/-- The registration of a role with a new range has none yet. -/
def Uncommitted (regs : Nat → UbReg) (args : UbArgs) (newArenaRegs : UbRole → Option McArenaReg)
    (role : UbRole) : Prop :=
  ∀ range, newArenaRegs role = some range → ∃ id, args.reg role = some id ∧ (regs id).nvlsUbReg = none

theorem commitRange_books (books : Books alignment rank (rangesOf newArenaRegs (role :: roles)))
    (uncommitted : Uncommitted rank.regs args newArenaRegs role) :
    Books alignment { rank with regs := commitRange args newArenaRegs rank.regs role }
      (rangesOf newArenaRegs roles) := by
  rw [rangesOf_cons] at books
  rw [commitRange]
  cases found : newArenaRegs role with
  | none =>
    rw [found] at books
    cases args.reg role <;> exact books
  | some range =>
    obtain ⟨id, isReg, free⟩ := uncommitted range found
    rw [found] at books
    have committed := Ledger.commit books free
    rw [← nvlsUbReg_update] at committed
    rw [isReg]
    exact committed

end

/-! ### Reservation and reclaim -/

variable {state state' : UbRegState n}

theorem markNoSupport_reg (args : UbArgs) (status : UbRole → McBindStatus) (roles : List UbRole) (regs : Nat → UbReg)
    (id : Nat) :
    (roles.foldl (markNoSupport args status) regs id).nvlsUbReg = (regs id).nvlsUbReg ∧
      (roles.foldl (markNoSupport args status) regs id).begAddr = (regs id).begAddr ∧
      (roles.foldl (markNoSupport args status) regs id).endAddr = (regs id).endAddr := by
  induction roles generalizing regs with
  | nil => exact ⟨rfl, rfl, rfl⟩
  | cons role roles ih =>
    rw [foldl_cons, (ih _).1, (ih _).2.1, (ih _).2.2, markNoSupport]
    cases args.reg role with
    | none => exact ⟨rfl, rfl, rfl⟩
    | some other =>
      split
      · by_cases same : id = other
        · subst same
          simp
        · simp [same]
      · exact ⟨rfl, rfl, rfl⟩

theorem UbRole.nodup_all : UbRole.all.Nodup := by decide

/-- The records of the new ranges. -/
def newRegs (rank : UbRank n) (plan : UbRoundPlan) (verdicts : UbRole → McBindStatus) (role : UbRole) :
    Option McArenaReg :=
  ((ncclMcArenaRegister rank.arena UbRole.all (reqBindSize plan) verdicts).2 role).1

/-- What a rank has after it reserved and bound its ranges. -/
structure Bound (alignment : Nat) (rank : UbRank n) (state : UbRegState n) (bound : UbRank n)
    (newArenaRegs : UbRole → Option McArenaReg) : Prop where
  phase : bound.phase = .binds state newArenaRegs
  books : Books alignment bound (rangesOf newArenaRegs UbRole.all)
  partition : bound.arena.partition = rank.arena.partition
  ucGranularity : bound.arena.ucGranularity = rank.arena.ucGranularity
  reserved : ∀ role reg, newArenaRegs role = some reg → state.plan.action role = .newRange ∧
    state.plan.rangeOwner role = role ∧ reg.mcBaseAddress = rank.arena.partition.ptr + reg.offset
  regs : ∀ id, (bound.regs id).nvlsUbReg = (rank.regs id).nvlsUbReg ∧
    (bound.regs id).begAddr = (rank.regs id).begAddr ∧ (bound.regs id).endAddr = (rank.regs id).endAddr

theorem bindNewRanges_spec (books : Books alignment rank [])
    (whole : ∀ role, alignment ∣ reqBindSize state.plan role) (verdicts : UbRole → McBindStatus) :
    Bound alignment rank state (rank.bindNewRanges state verdicts) (newRegs rank state.plan verdicts) := by
  obtain ⟨ids, once, complete, holds⟩ := books.held
  obtain ⟨filled, same, reserved⟩ := register_spec holds (fun role _ => whole role) UbRole.nodup_all verdicts
  have marked := markNoSupport_reg state.args (fun role =>
    ((ncclMcArenaRegister rank.arena UbRole.all (reqBindSize state.plan) verdicts).2 role).2) UbRole.all rank.regs
  have arena : (rank.bindNewRanges state verdicts).arena =
      (ncclMcArenaRegister rank.arena UbRole.all (reqBindSize state.plan) verdicts).1 := rfl
  have queue : (rank.bindNewRanges state verdicts).arena.retiredQueue = rank.arena.retiredQueue := by
    rw [arena, same]
  refine ⟨rfl, ?_, by rw [arena, same], by rw [arena, same], ?_, marked⟩
  · have committed : (fun id => ((rank.bindNewRanges state verdicts).regs id).nvlsUbReg) =
        fun id => (rank.regs id).nvlsUbReg := funext fun id => (marked id).1
    rw [Books, committed]
    refine ⟨⟨ids, once, complete, ?_⟩, by rw [queue]; exact books.sorted, ?_⟩
    · rw [queued, queue]
      exact filled.perm (perm_append_comm_assoc _ _ _)
    · rw [queued, queue]
      exact books.log
  · intro role reg found
    obtain ⟨nonzero, -, based⟩ := reserved role (by cases role <;> decide) reg found
    rw [reqBindSize] at nonzero
    split at nonzero
    case isTrue new => exact ⟨new.1, new.2, based⟩
    · exact absurd rfl nonzero

/-- Ranks with the same space reserve the same ranges. -/
theorem bindNewRanges_agree (books : Books alignment rank []) (books' : Books alignment rank' [])
    (space : rank.arena.space = rank'.arena.space) (limit : rank.arena.partition.size = rank'.arena.partition.size)
    (plan : state.plan = state'.plan) (whole : ∀ role, alignment ∣ reqBindSize state.plan role)
    (verdicts verdicts' : UbRole → McBindStatus) :
    (rank.bindNewRanges state verdicts).arena.space = (rank'.bindNewRanges state' verdicts').arena.space ∧
      ∀ role, (newRegs rank state.plan verdicts role).map McArenaReg.range =
        (newRegs rank' state'.plan verdicts' role).map McArenaReg.range := by
  obtain ⟨ids, -, -, holds⟩ := books.held
  obtain ⟨ids', -, -, holds'⟩ := books'.held
  rw [← plan]
  have agree := register_agree holds holds' space limit (fun role _ => whole role) UbRole.nodup_all verdicts verdicts'
  refine ⟨?_, agree.2⟩
  have arena : (rank'.bindNewRanges state' verdicts').arena =
      (ncclMcArenaRegister rank'.arena UbRole.all (reqBindSize state'.plan) verdicts').1 := rfl
  rw [arena, ← plan]
  exact agree.1

end NcclCore.NvlsUbProofs
