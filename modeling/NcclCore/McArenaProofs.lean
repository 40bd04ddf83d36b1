import NcclCore.McArena
import NcclCore.SpaceProofs

/-! The arena of one rank. It holds a list of ranges if its space is exactly filled by them,
in whole granules. Each operation is described by what it does to that list; where the
ranges are does not depend on the granularity of the rank, as long as it divides the common
one. -/
namespace NcclCore.McArenaProofs
open Lib SpaceProofs List Function
variable {alignment size : Nat} {arena arena' : McArena} {live live' gone : List (Nat × Nat)}

/-- The space is filled by these ranges of whole granules. -/
structure Holds (alignment : Nat) (arena : McArena) (live : List (Nat × Nat)) : Prop where
  fills : Space.Exact ⟨arena.space, live⟩
  granules : Space.InGranules arena.partition.size alignment ⟨arena.space, live⟩
  power : ∃ k, arena.partition.minGranularity = 2 ^ k
  divides : arena.partition.minGranularity ∣ alignment

namespace Holds

theorem init {partition : McPartition} (power : ∃ k, partition.minGranularity = 2 ^ k)
    (divides : partition.minGranularity ∣ alignment) :
    Holds alignment (ncclMcArenaInit partition ucGranularity) [] where
  fills := Space.exact_empty
  granules := nofun
  power := power
  divides := divides

variable (holds : Holds alignment arena live)
include holds

theorem perm (same : live.Perm live') : Holds alignment arena live' where
  fills :=
    { ascending := holds.fills.ascending
      covers := fun x => by simpa [same.mem_iff] using holds.fills.covers x
      apart := (same.pairwise_iff fun apart => Or.symm apart).mp holds.fills.apart
      nonempty := fun range member => holds.fills.nonempty range (same.mem_iff.mpr member) }
  granules := fun range member => holds.granules range (same.mem_iff.mpr member)
  __ := holds

/-- Only the space, the partition and the ranges matter. -/
theorem congr (space : arena'.space = arena.space)
    (partition : arena'.partition = arena.partition) : Holds alignment arena' live where
  fills := by rw [space]; exact holds.fills
  granules := by rw [partition]; exact holds.granules
  power := by rw [partition]; exact holds.power
  divides := by rw [partition]; exact holds.divides

theorem positive : 0 < arena.partition.minGranularity := by
  obtain ⟨k, power⟩ := holds.power
  rw [power]
  exact Nat.two_pow_pos k

theorem reserveSize_eq (whole : alignment ∣ size) : arena.reserveSize size = size :=
  alignUp_of_dvd holds.positive (holds.divides.trans whole)

theorem covered_iff (x : Nat) : Covered arena.space x ↔ ∃ range ∈ live, InRange range x := holds.fills.covers x

/-- What is left when some of the ranges are given back. -/
theorem covered_rest (rest : Holds alignment arena' live') (split : live.Perm (gone ++ live')) (x : Nat) :
    Covered arena'.space x ↔ Covered arena.space x ∧ ¬ ∃ range ∈ gone, InRange range x := by
  have apart := (pairwise_append.mp (holds.perm split).fills.apart).2.2
  rw [rest.covered_iff, (holds.perm split).covered_iff]
  constructor
  · rintro ⟨range, member, inside⟩
    refine ⟨⟨range, mem_append_right _ member, inside⟩, ?_⟩
    rintro ⟨other, isGone, inside'⟩
    have := apart other isGone range member
    simp only [InRange, Apart] at *
    omega
  · rintro ⟨⟨range, member, inside⟩, kept⟩
    rcases mem_append.mp member with isGone | member
    · exact absurd ⟨range, isGone, inside⟩ kept
    · exact ⟨range, member, inside⟩

/-- Two arenas that cover the same have the same space. -/
theorem space_eq (holds' : Holds alignment arena' live')
    (same : ∀ x, Covered arena.space x ↔ Covered arena'.space x) : arena.space = arena'.space :=
  holds.fills.ascending.eq_of_covered holds'.fills.ascending same

theorem tryAlloc (whole : alignment ∣ size) (nonempty : 0 < size) :
    (∃ offset space, ncclSpaceTryAlloc arena.space arena.partition.size size arena.partition.minGranularity =
        (some offset, space) ∧ Holds alignment { arena with space } ((offset, size) :: live)) ∨
      ncclSpaceTryAlloc arena.space arena.partition.size size arena.partition.minGranularity = (none, arena.space) := by
  have legal : Space.Legal ⟨arena.space, live⟩ (.tryAlloc arena.partition.size size arena.partition.minGranularity) :=
    ⟨nonempty, holds.power⟩
  have granular : Space.Granular arena.partition.size alignment
      (.tryAlloc arena.partition.size size arena.partition.minGranularity) := ⟨rfl, holds.divides, whole⟩
  have fills := ((holds.fills.correct_iff_tight legal).mpr (holds.fills.tight_of_granular holds.granules granular)).2.1
  have granules := holds.fills.inGranules_apply holds.granules granular legal
  rcases tryAlloc_cases arena.space arena.partition.size size arena.partition.minGranularity with
    ⟨i, -, result⟩ | ⟨-, result⟩
  · simp only [Space.apply, result] at fills granules
    exact .inl ⟨_, _, result, fills, granules, holds.power, holds.divides⟩
  · exact .inr result

theorem free {range : Nat × Nat} (member : range ∈ live) :
    ∃ space, ncclSpaceFree arena.space range.1 (arena.reserveSize range.2) = (true, space) ∧
      Holds alignment { arena with space } (live.erase range) := by
  have legal : Space.Legal ⟨arena.space, live⟩ (.free range.1 range.2) := member
  have correct := (holds.fills.correct_iff_tight legal).mpr trivial
  have granular : Space.Granular arena.partition.size alignment (.free range.1 range.2) := trivial
  have granules := holds.fills.inGranules_apply holds.granules granular legal
  have success : (ncclSpaceFree arena.space range.1 range.2).1 = true := correct.1
  have fills := correct.2.1
  rw [holds.reserveSize_eq (holds.granules range member).2.1]
  cases result : ncclSpaceFree arena.space range.1 range.2 with
  | mk ok space =>
    rw [result] at success
    obtain rfl : ok = true := success
    simp only [Space.apply, result] at fills granules
    exact ⟨space, rfl, fills, granules, holds.power, holds.divides⟩

/-- A record whose range is held goes back to the space. -/
theorem deregister (split : live.Perm (reg.range :: live')) :
    Holds alignment (ncclMcArenaDeregister arena reg) live' := by
  obtain ⟨space, result, rest⟩ := (holds.perm split).free mem_cons_self
  rw [erase_cons_head] at rest
  have result : ncclSpaceFree arena.space reg.offset (arena.reserveSize reg.bindSize) = (true, space) := result
  rw [ncclMcArenaDeregister, result]
  exact rest

end Holds

/-! ### Reservation -/

/-- Where every empty segment begins in a granule, the granule is of no account. -/
theorem tryAllocFrom_align (positive : 0 < align) (aligned : ∀ i ≤ cuts.length, align ∣ lowCut cuts i) (fuel i : Nat) :
    tryAllocFrom cuts limit size align fuel i = tryAllocFrom cuts limit size 1 fuel i := by
  induction fuel generalizing i with
  | zero => rfl
  | succ fuel ih =>
    unfold tryAllocFrom
    by_cases inside : i ≤ cuts.length
    · simp [alignUp_of_dvd positive (aligned i inside), alignUp_of_dvd one_pos (one_dvd _), ih]
    · simp [if_neg inside]

theorem Holds.tryAlloc_align (holds : Holds alignment arena live) (limit : Nat) :
    ncclSpaceTryAlloc arena.space limit size arena.partition.minGranularity =
      ncclSpaceTryAlloc arena.space limit size 1 :=
  tryAllocFrom_align holds.positive
    (fun _ bound => holds.divides.trans (holds.fills.granule_lowCut holds.granules bound))
    _ _

section
variable {ι : Type} {sizes : ι → Nat} {outRegs : ι → Option McArenaReg} {requests : List ι}

/-- The ranges of the records. -/
def rangesOf (outRegs : ι → Option McArenaReg) (requests : List ι) : List (Nat × Nat) :=
  requests.filterMap fun i => (outRegs i).map McArenaReg.range

variable {outRegs' : ι → Option McArenaReg}

theorem rangesOf_congr (same : ∀ i ∈ requests, (outRegs i).map McArenaReg.range = (outRegs' i).map McArenaReg.range) :
    rangesOf outRegs requests = rangesOf outRegs' requests :=
  filterMap_congr same

theorem rangesOf_none : rangesOf (fun _ : ι => none) requests = [] := by simp [rangesOf]

/-- Unwinding gives back all of it. -/
theorem unwind_spec (holds : Holds alignment arena (rangesOf outRegs requests ++ live)) :
    Holds alignment (unwind outRegs arena requests) live ∧
      unwind outRegs arena requests = { arena with space := (unwind outRegs arena requests).space } := by
  induction requests generalizing arena with
  | nil => exact ⟨holds, rfl⟩
  | cons i requests ih =>
    cases found : outRegs i with
    | none =>
      rw [rangesOf, filterMap_cons_none (by rw [found]; rfl)] at holds
      simpa [unwind, found] using ih holds
    | some =>
      rw [rangesOf, filterMap_cons_some (by rw [found]; rfl)] at holds
      have step := ih (holds.deregister (.refl _))
      simp only [unwind, foldl_cons, found] at step ⊢
      exact ⟨step.1, step.2⟩

/-- A record that a reservation of these sizes makes. -/
def Reserved (partition : McPartition) (sizes : ι → Nat) (i : ι) (reg : McArenaReg) : Prop :=
  reg.bindSize = sizes i ∧ reg.mcBaseAddress = partition.ptr + reg.offset

/-- What the reservation of the requests has done. -/
structure Reservation (alignment : Nat) (arena : McArena) (live : List (Nat × Nat)) (sizes : ι → Nat)
    (outRegs : ι → Option McArenaReg) (requests : List ι) (arena' : McArena) (outRegs' : ι → Option McArenaReg)
    (all : Bool) : Prop where
  holds : Holds alignment arena' (rangesOf outRegs' requests ++ live)
  same : arena' = { arena with space := arena'.space }
  others : ∀ i, i ∉ requests → outRegs' i = outRegs i
  reserved : ∀ i ∈ requests, ∀ reg, outRegs' i = some reg → sizes i ≠ 0 ∧ Reserved arena.partition sizes i reg
  complete : all = true → ∀ i ∈ requests, sizes i ≠ 0 → (outRegs' i).isSome

variable [DecidableEq ι]

theorem reserveRanges_spec (holds : Holds alignment arena live) (whole : ∀ i ∈ requests, alignment ∣ sizes i)
    (once : requests.Nodup) (fresh : ∀ i ∈ requests, outRegs i = none) :
    Reservation alignment arena live sizes outRegs requests (reserveRanges sizes arena outRegs requests).1
      (reserveRanges sizes arena outRegs requests).2.1 (reserveRanges sizes arena outRegs requests).2.2 := by
  induction requests generalizing arena live outRegs with
  | nil => exact ⟨holds, rfl, fun _ _ => rfl, nofun, nofun⟩
  | cons i requests ih =>
    obtain ⟨notIn, once⟩ := nodup_cons.mp once
    have whole' : ∀ j ∈ requests, alignment ∣ sizes j := fun j member => whole j (mem_cons_of_mem _ member)
    have isNone := fresh i mem_cons_self
    unfold reserveRanges
    by_cases absent : sizes i = 0
    · rw [if_pos absent]
      have step := ih holds whole' once fun j member => fresh j (mem_cons_of_mem _ member)
      have still := (step.others i notIn).trans isNone
      refine ⟨?_, step.same, fun j away => step.others j fun member => away (mem_cons_of_mem _ member), ?_, ?_⟩
      · rw [rangesOf, filterMap_cons_none (by rw [still]; rfl)]
        exact step.holds
      · refine forall_mem_cons.mpr ⟨fun reg found => ?_, step.reserved⟩
        rw [still] at found
        exact nomatch found
      · exact fun all => forall_mem_cons.mpr ⟨absurd absent, step.complete all⟩
    · rw [if_neg absent, holds.reserveSize_eq (whole i mem_cons_self)]
      rcases holds.tryAlloc (whole i mem_cons_self) (Nat.pos_of_ne_zero absent) with
        ⟨offset, space, result, placed⟩ | result
      · rw [result]
        have fresh' : ∀ j ∈ requests, update outRegs i
            (some ⟨offset, sizes i, arena.partition.ptr + offset, false⟩) j = none := by
          intro j member
          have other : j ≠ i := fun same => notIn (same ▸ member)
          rw [update_of_ne other]
          exact fresh j (mem_cons_of_mem _ member)
        have step := ih placed whole' once fresh'
        have still := step.others i notIn
        rw [update_self] at still
        refine ⟨?_, step.same, ?_, ?_, ?_⟩
        · rw [rangesOf, filterMap_cons_some (by rw [still]; rfl)]
          exact step.holds.perm perm_middle
        · intro j away
          have other : j ≠ i := fun same => away (same ▸ mem_cons_self)
          rw [step.others j fun member => away (mem_cons_of_mem _ member), update_of_ne other]
        · refine forall_mem_cons.mpr ⟨fun reg found => ?_, step.reserved⟩
          rw [still] at found
          cases found
          exact ⟨absent, rfl, rfl⟩
        · refine fun all => forall_mem_cons.mpr ⟨fun _ => ?_, step.complete all⟩
          rw [still]
          rfl
      · rw [result]
        have none : rangesOf outRegs (i :: requests) = [] := by
          rw [rangesOf_congr fun j member => congrArg _ (fresh j member), rangesOf_none]
        refine ⟨by rw [none]; exact holds, rfl, fun _ _ => rfl, fun j member reg found => ?_, nofun⟩
        have found : outRegs j = some reg := found
        rw [fresh j member] at found
        exact nomatch found

/-- What `ncclMcArenaRegister` has done. -/
structure Registered (alignment : Nat) (arena : McArena) (live : List (Nat × Nat)) (sizes : ι → Nat)
    (requests : List ι) (arena' : McArena) (out : ι → Option McArenaReg) : Prop where
  holds : Holds alignment arena' (rangesOf out requests ++ live)
  same : arena' = { arena with space := arena'.space }
  reserved : ∀ i ∈ requests, ∀ reg, out i = some reg → sizes i ≠ 0 ∧ Reserved arena.partition sizes i reg

theorem bindRange_range (partition : McPartition) (outReg : Option McArenaReg) (verdict : McBindStatus) :
    (bindRange partition outReg verdict).1.map McArenaReg.range = outReg.map McArenaReg.range := by
  cases outReg <;> rfl

theorem register_spec (holds : Holds alignment arena live) (whole : ∀ i ∈ requests, alignment ∣ sizes i)
    (once : requests.Nodup) (verdicts : ι → McBindStatus) :
    Registered alignment arena live sizes requests (ncclMcArenaRegister arena requests sizes verdicts).1
      fun i => ((ncclMcArenaRegister arena requests sizes verdicts).2 i).1 := by
  have spec := reserveRanges_spec holds whole once fun _ _ => rfl
  rw [ncclMcArenaRegister]
  rcases result : reserveRanges sizes arena (fun _ => none) requests with ⟨arena', outRegs, all⟩
  rw [result] at spec
  cases all with
  | true =>
    refine ⟨?_, spec.same, ?_⟩
    · rw [rangesOf_congr fun i _ => bindRange_range arena'.partition (outRegs i) (verdicts i)]
      exact spec.holds
    · intro i member reg found
      cases isReg : outRegs i with
      | none =>
        simp only [isReg, bindRange] at found
        exact nomatch found
      | some reserved =>
        simp only [isReg, bindRange] at found
        cases found
        exact spec.reserved i member reserved isReg
  | false =>
    obtain ⟨back, same⟩ := unwind_spec spec.holds
    refine ⟨?_, ?_, nofun⟩
    · rw [rangesOf_none]
      exact back
    · dsimp only
      rw [same, spec.same]

variable (holds : Holds alignment arena live) (holds' : Holds alignment arena' live')
  (space : arena.space = arena'.space) (limit : arena.partition.size = arena'.partition.size)
  (whole : ∀ i ∈ requests, alignment ∣ sizes i)
include holds holds' space limit whole

/-- Arenas with the same space reserve the same ranges. -/
theorem reserveRanges_agree (outs : ∀ i, (outRegs i).map McArenaReg.range = (outRegs' i).map McArenaReg.range) :
    (reserveRanges sizes arena outRegs requests).1.space = (reserveRanges sizes arena' outRegs' requests).1.space ∧
      (∀ i, ((reserveRanges sizes arena outRegs requests).2.1 i).map McArenaReg.range =
        ((reserveRanges sizes arena' outRegs' requests).2.1 i).map McArenaReg.range) ∧
      (reserveRanges sizes arena outRegs requests).2.2 = (reserveRanges sizes arena' outRegs' requests).2.2 := by
  induction requests generalizing arena arena' live live' outRegs outRegs' with
  | nil => exact ⟨space, outs, rfl⟩
  | cons i requests ih =>
    have whole' : ∀ j ∈ requests, alignment ∣ sizes j := fun j member => whole j (mem_cons_of_mem _ member)
    have isWhole := whole i mem_cons_self
    unfold reserveRanges
    by_cases absent : sizes i = 0
    · rw [if_pos absent, if_pos absent]
      exact ih holds holds' space limit whole' outs
    · have nonempty := Nat.pos_of_ne_zero absent
      rw [if_neg absent, if_neg absent, holds.reserveSize_eq isWhole, holds'.reserveSize_eq isWhole]
      have results : ncclSpaceTryAlloc arena.space arena.partition.size (sizes i) arena.partition.minGranularity =
          ncclSpaceTryAlloc arena'.space arena'.partition.size (sizes i) arena'.partition.minGranularity := by
        rw [holds.tryAlloc_align, holds'.tryAlloc_align, space, limit]
      rcases holds.tryAlloc isWhole nonempty with ⟨offset, space₁, result, placed⟩ | result
      · rcases holds'.tryAlloc isWhole nonempty with ⟨offset', space₂, result', placed'⟩ | result'
        · obtain ⟨rfl, rfl⟩ : offset = offset' ∧ space₁ = space₂ := by
            rw [result, result'] at results
            cases results
            exact ⟨rfl, rfl⟩
          rw [result, result']
          refine ih placed placed' rfl limit whole' fun j => ?_
          by_cases same : j = i
          · subst same
            simp [McArenaReg.range]
          · simpa [same] using outs j
        · rw [result, result'] at results
          exact nomatch results
      · have result' := results.symm.trans result
        rw [result, result']
        exact ⟨rfl, outs, rfl⟩

/-- Arenas with the same space register the same ranges, whatever the binds. -/
theorem register_agree (once : requests.Nodup) (verdicts verdicts' : ι → McBindStatus) :
    (ncclMcArenaRegister arena requests sizes verdicts).1.space =
        (ncclMcArenaRegister arena' requests sizes verdicts').1.space ∧
      ∀ i, ((ncclMcArenaRegister arena requests sizes verdicts).2 i).1.map McArenaReg.range =
        ((ncclMcArenaRegister arena' requests sizes verdicts').2 i).1.map McArenaReg.range := by
  have spec := reserveRanges_spec holds whole once fun _ _ => rfl
  have spec' := reserveRanges_spec holds' whole once fun _ _ => rfl
  obtain ⟨spaces, outs, ends⟩ :
      (reserveRanges sizes arena (fun _ => none) requests).1.space =
          (reserveRanges sizes arena' (fun _ => none) requests).1.space ∧ _ ∧ _ :=
    reserveRanges_agree holds holds' space limit whole fun _ => rfl
  rw [ncclMcArenaRegister, ncclMcArenaRegister]
  rcases run : reserveRanges sizes arena (fun _ => none) requests with ⟨reserved, outRegs, all⟩
  rcases run' : reserveRanges sizes arena' (fun _ => none) requests with ⟨reserved', outRegs', all'⟩
  rw [run] at spec spaces outs ends
  rw [run'] at spec' spaces outs ends
  obtain rfl : all = all' := ends
  cases all with
  | true => exact ⟨spaces, fun i => by rw [bindRange_range, bindRange_range, outs i]⟩
  | false =>
    -- Both are back where they were.
    have back := (unwind_spec spec.holds).1
    have back' := (unwind_spec spec'.holds).1
    refine ⟨?_, fun _ => rfl⟩
    calc (unwind outRegs reserved requests).space = arena.space :=
          back.space_eq holds fun x => by rw [back.covered_iff, holds.covered_iff]
      _ = arena'.space := space
      _ = (unwind outRegs' reserved' requests).space :=
          holds'.space_eq back' fun x => by rw [back'.covered_iff, holds'.covered_iff]

end

/-! ### Retirement -/

/-- In the order of the offsets. -/
def Sorted (queue : List McArenaReg) : Prop := queue.Pairwise (·.offset < ·.offset)

theorem insertSorted_perm (reg : McArenaReg) (queue : List McArenaReg) :
    (insertSorted reg queue).Perm (reg :: queue) := by
  induction queue with
  | nil => exact .refl _
  | cons cur queue ih =>
    rw [insertSorted]
    split
    · exact (ih.cons cur).trans (.swap _ _ _)
    · exact .refl _

theorem insertSorted_sorted (sorted : Sorted queue) (other : ∀ node ∈ queue, node.offset ≠ reg.offset) :
    Sorted (insertSorted reg queue) := by
  induction queue with
  | nil => exact pairwise_singleton _ _
  | cons cur queue ih =>
    obtain ⟨least, rest⟩ := pairwise_cons.mp sorted
    have different := other cur mem_cons_self
    rw [insertSorted]
    split
    case isTrue before =>
      refine pairwise_cons.mpr ⟨fun node member => ?_, ih rest fun node member => other node (.tail _ member)⟩
      rcases mem_cons.mp ((insertSorted_perm reg queue).mem_iff.mp member) with rfl | member
      · exact before
      · exact least node member
    case isFalse behind =>
      refine pairwise_cons.mpr ⟨forall_mem_cons.mpr ⟨by omega, fun node member => ?_⟩, sorted⟩
      have := least node member
      omega

theorem perm_append_cons (before : List α) (node : α) (next : List α) :
    (before ++ node :: next).Perm (node :: (next ++ before)) :=
  perm_middle.trans (.cons _ perm_append_comm)

/-- A walk over a sorted queue finds the node with the offset it looks for. -/
theorem walk_split (sorted : Sorted queue) (member : node ∈ queue) :
    ∃ before next, queue = before ++ node :: next ∧ queue.takeWhile (·.offset < node.offset) = before ∧
      queue.dropWhile (·.offset < node.offset) = node :: next := by
  obtain ⟨before, next, rfl⟩ := append_of_mem member
  have less := (pairwise_append.mp sorted).2.2
  have passed : ∀ other ∈ before, decide (other.offset < node.offset) = true :=
    fun other member => decide_eq_true (less other member node mem_cons_self)
  refine ⟨before, next, rfl, ?_, ?_⟩
  · rw [takeWhile_append_of_pos passed]
    simp
  · rw [dropWhile_append_of_pos passed]
    simp

variable {queue : List McArenaReg} (sorted : Sorted queue)
  (holds : Holds alignment { arena with space } (queue.map McArenaReg.range ++ others))
include sorted holds

/-- One pass of the walk: the node is found, and its range goes back to the space. -/
theorem reclaimWalk_cons (member : node ∈ queue) :
    ∃ before next space', queue = before ++ node :: next ∧
      Holds alignment { arena with space := space' }
        (next.map McArenaReg.range ++ (before.map McArenaReg.range ++ others)) ∧
      arena.reclaimWalk space queue (node.retired :: regs) =
        ((arena.reclaimWalk space' next regs).1, before ++ (arena.reclaimWalk space' next regs).2.1,
          node :: (arena.reclaimWalk space' next regs).2.2) := by
  obtain ⟨before, next, split, take, drop⟩ := walk_split sorted member
  obtain ⟨space', freed, rest⟩ := holds.free (mem_append_left _ (mem_map_of_mem member))
  have freed : ncclSpaceFree space node.offset (arena.reserveSize node.bindSize) = (true, space') := freed
  have take : queue.takeWhile (·.offset < node.retired.offset) = before := take
  have drop : queue.dropWhile (·.offset < node.retired.offset) = node :: next := drop
  have same : ¬ node.offset ≠ node.retired.offset := fun differ => differ rfl
  refine ⟨before, next, space', split, rest.perm ?_, ?_⟩
  · have order := ((perm_append_cons before node next).map McArenaReg.range).append_right others
    rw [← split] at order
    simpa using order.erase node.range
  · rw [McArena.reclaimWalk, drop, take]
    simp [if_neg same, freed]

/-- The walk frees the records it is given, and the others stay in order. -/
theorem reclaimWalk_spec (ordered : regs.Pairwise (·.offset < ·.offset))
    (found : ∀ reg ∈ regs, ∃ node ∈ queue, node.retired = reg) :
    Holds alignment { arena with space := (arena.reclaimWalk space queue regs).1 }
        ((arena.reclaimWalk space queue regs).2.1.map McArenaReg.range ++ others) ∧
      (arena.reclaimWalk space queue regs).2.1.Sublist queue ∧
      (arena.reclaimWalk space queue regs).2.2.map McArenaReg.retired = regs ∧
      queue.Perm ((arena.reclaimWalk space queue regs).2.2 ++ (arena.reclaimWalk space queue regs).2.1) := by
  induction regs generalizing space queue others with
  | nil => exact ⟨holds, .refl _, rfl, .refl _⟩
  | cons reg regs ih =>
    obtain ⟨node, member, rfl⟩ := found _ mem_cons_self
    obtain ⟨later, ordered'⟩ := pairwise_cons.mp ordered
    obtain ⟨before, next, space', rfl, rest, walk⟩ := reclaimWalk_cons sorted holds member
    obtain ⟨-, sortedRest, passed⟩ := pairwise_append.mp sorted
    have found' : ∀ reg ∈ regs, ∃ node ∈ next, node.retired = reg := by
      intro reg isReg
      obtain ⟨other, isNode, rfl⟩ := found reg (mem_cons_of_mem _ isReg)
      have behind : node.offset < other.offset := later _ isReg
      rcases mem_append.mp isNode with early | after
      · have := passed other early node mem_cons_self
        omega
      · rcases mem_cons.mp after with rfl | after
        · omega
        · exact ⟨other, after, rfl⟩
    obtain ⟨ends, sublist, freed, parts⟩ := ih (pairwise_cons.mp sortedRest).2 rest ordered' found'
    rw [walk]
    refine ⟨ends.perm ?_, (List.Sublist.refl _).append (sublist.cons _), by simp [freed], ?_⟩
    · rw [map_append, append_assoc]
      exact perm_append_comm_assoc _ _ _
    · exact perm_middle.trans (.cons _ ((parts.append_left _).trans (perm_append_comm_assoc _ _ _)))

end NcclCore.McArenaProofs
