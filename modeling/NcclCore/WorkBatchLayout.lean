import Mathlib.Order.Interval.Finset.Nat
import NcclCore.WorkBatchEncode
import NcclCore.Lib.LinkedList

/-! The table `finishPlan` fills. Going round the channels puts the first batch
of the n-th channel at index n, and the batches of every channel form a linked
list through the table, in the order of its queue. -/
namespace NcclCore
open Lib List Function

section
variable (table : List DevWorkBatch)

/-- Where the list of batches goes on behind an entry of the table. -/
def nextBatch (i : Nat) : Option Nat :=
  table[i]?.bind fun batch => if batch.nextJump = 0 then none else some (i + batch.nextJump)

/-- The entry of the table is a batch of the queue, but for its link. -/
def HoldsBatch (i : Nat) (batch : DevWorkBatch) : Prop :=
  ∃ jump, table[i]? = some (batch.withJump jump)

theorem length_linkPrev (prev : Option Nat) : (linkPrev table prev).length = table.length := by
  cases prev <;> simp [linkPrev]

end

variable {table : List DevWorkBatch}

theorem HoldsBatch.lt (holds : HoldsBatch table i batch) : i < table.length := by
  obtain ⟨jump, found⟩ := holds
  exact (List.getElem?_eq_some_iff.mp found).1

theorem HoldsBatch.push (holds : HoldsBatch table i batch) (prev : Option Nat) (new : DevWorkBatch) :
    HoldsBatch (linkPrev table prev ++ [new]) i batch := by
  have inside := holds.lt
  obtain ⟨jump, found⟩ := holds
  rw [HoldsBatch, getElem?_append_left (by rwa [length_linkPrev])]
  cases prev with
  | none => exact ⟨jump, found⟩
  | some prev =>
    rw [linkPrev, getElem?_modify, found]
    by_cases same : prev = i
    · exact ⟨_, by simp [same]; rfl⟩
    · exact ⟨jump, by simp [same]⟩

theorem holdsBatch_new (table : List DevWorkBatch) (prev : Option Nat) (unlinked : new.nextJump = 0) :
    HoldsBatch (linkPrev table prev ++ [new]) table.length new := by
  refine ⟨0, ?_⟩
  rw [← length_linkPrev table prev, getElem?_concat_length, ← unlinked]
  rfl

theorem nextBatch_of_le (outside : table.length ≤ i) : nextBatch table i = none := by
  rw [nextBatch, getElem?_eq_none outside, Option.bind_none]

theorem nextBatch_concat (unlinked : new.nextJump = 0) (i : Nat) :
    nextBatch (table ++ [new]) i = nextBatch table i := by
  rcases lt_trichotomy i table.length with before | rfl | behind
  · rw [nextBatch, getElem?_append_left before, nextBatch]
  · rw [nextBatch, nextBatch_of_le le_rfl]
    simp [unlinked]
  · rw [nextBatch_of_le behind.le, nextBatch_of_le (by simpa using Nat.succ_le_of_lt behind)]

/-- Linking and appending a batch is pushing it on its channel's list. -/
theorem nextBatch_push (table : List DevWorkBatch) (ends : Option (Ends Nat)) (unlinked : new.nextJump = 0)
    (close : ∀ list, ends = some list → list.tail < table.length ∧ table.length < list.tail + 2 ^ 14) :
    nextBatch (linkPrev table (ends.map Ends.tail) ++ [new]) = (pushBack (nextBatch table) ends table.length).1 := by
  funext i
  rw [nextBatch_concat unlinked]
  cases ends with
  | none => rfl
  | some list =>
    obtain ⟨inside, reach⟩ := close list rfl
    simp only [Option.map_some, linkPrev, pushBack, nextBatch, getElem?_modify]
    by_cases same : list.tail = i
    · subst same
      have jump : (table.length - list.tail) % 2 ^ 14 = table.length - list.tail := Nat.mod_eq_of_lt (by omega)
      have linked : table.length - list.tail ≠ 0 := by omega
      simp only [update_self, getElem?_eq_getElem inside, jump, ↓reduceIte, Option.map_eq_map,
        DevWorkBatch.withJump, Option.map_some, Option.bind_some, linked, Nat.add_sub_cancel' inside.le]
    · simp [same, update_of_ne (Ne.symm same), nextBatch]

/-- The batches taken from the queues so far, linked channel by channel. -/
structure Laid (queued : Nat → List DevWorkBatch) (state : FinishState) (places : Nat → List Nat)
    (ends : Nat → Option (Ends Nat)) : Prop where
  held : ∀ c, Held (nextBatch state.batchZero) (ends c) (places c) none
  prev : ∀ c, state.batchPrev c = (ends c).map Ends.tail
  content : ∀ c, ∃ taken, queued c = taken ++ state.queues c ∧
    List.Forall₂ (HoldsBatch state.batchZero) (places c) taken
  inside : ∀ c, ∀ i ∈ places c, i < state.batchZero.length
  distinct : ∀ c, (places c).Nodup
  disjoint : ∀ c d, c ≠ d → ∀ i ∈ places c, i ∉ places d

/-- The table is not longer than the reach of a link from a channel's last batch. -/
def FinishState.Reaches (state : FinishState) (c : Nat) : Prop :=
  ∀ prev, state.batchPrev c = some prev → state.batchZero.length < prev + 2 ^ 14

variable {queued : Nat → List DevWorkBatch} {state next : FinishState} {places : Nat → List Nat}
  {ends : Nat → Option (Ends Nat)}
variable {c : Nat} {batch : DevWorkBatch} {rest : List DevWorkBatch}

theorem dequeue_fields (waiting : state.queues c = batch :: rest) :
    (state.dequeue c).queues = update state.queues c rest ∧
      (state.dequeue c).batchPrev = update state.batchPrev c (some state.batchZero.length) ∧
      (state.dequeue c).batchZero = linkPrev state.batchZero (state.batchPrev c) ++ [batch] ∧
      (state.dequeue c).hasBatchMask = state.hasBatchMask := by
  simp [FinishState.dequeue, waiting]

/-- Taking a batch puts it at the end of its channel's list. -/
theorem Laid.dequeue (laid : Laid queued state places ends) (unlinked : ∀ c, ∀ batch ∈ queued c, batch.nextJump = 0)
    (waiting : state.queues c = batch :: rest) (reach : state.Reaches c) :
    ∃ ends', Laid queued (state.dequeue c)
      (update places c (places c ++ [state.batchZero.length])) ends' := by
  obtain ⟨queues, batchPrev, batchZero, -⟩ := dequeue_fields waiting
  obtain ⟨taken, whole, -⟩ := laid.content c
  have fresh : ∀ d, state.batchZero.length ∉ places d := fun d member =>
    lt_irrefl _ (laid.inside d _ member)
  have isUnlinked : batch.nextJump = 0 := unlinked c batch (by simp [whole, waiting])
  have next := nextBatch_push state.batchZero (ends c) isUnlinked fun list isList => by
    have held := laid.held c
    have prev := laid.prev c
    rw [isList] at held prev
    exact ⟨laid.inside c _ (mem_of_getLast? held.1), reach _ prev⟩
  rw [← laid.prev c, ← batchZero] at next
  refine ⟨update ends c (pushBack (nextBatch state.batchZero) (ends c) state.batchZero.length).2, ?_, ?_, ?_,
    ?_, ?_, ?_⟩
  · intro d
    rw [next]
    by_cases same : d = c
    · subst same
      simp only [update_self]
      have pushed := (laid.held d).pushBack (laid.distinct d) (fresh d)
      rwa [nextBatch_of_le le_rfl] at pushed
    · simp only [update_of_ne same]
      exact (laid.held d).congr fun i member =>
        pushBack_of_notMem (laid.held c) _ (laid.disjoint d c same i member)
  · intro d
    rw [batchPrev]
    by_cases same : d = c
    · subst same
      cases ends d <;> simp [pushBack]
    · simp only [update_of_ne same]
      exact laid.prev d
  · intro d
    rw [queues, batchZero]
    by_cases same : d = c
    · subst same
      obtain ⟨taken, whole, contents⟩ := laid.content d
      refine ⟨taken ++ [batch], by simp [whole, waiting], ?_⟩
      rw [update_self]
      exact rel_append (contents.imp fun i old holds => holds.push _ _) (.cons (holdsBatch_new _ _ isUnlinked) .nil)
    · obtain ⟨taken, whole, contents⟩ := laid.content d
      simp only [update_of_ne same]
      exact ⟨taken, whole, contents.imp fun i old holds => holds.push _ _⟩
  · intro d i member
    rw [batchZero, length_append, length_linkPrev]
    by_cases same : d = c
    · subst same
      rw [update_self] at member
      rcases mem_append.mp member with old | new
      · exact Nat.lt_succ_of_lt (laid.inside d i old)
      · rw [mem_singleton.mp new]
        exact Nat.lt_succ_self _
    · rw [update_of_ne same] at member
      exact Nat.lt_succ_of_lt (laid.inside d i member)
  · intro d
    by_cases same : d = c
    · subst same
      rw [update_self]
      exact (laid.distinct d).append (nodup_singleton _) (by simpa using fresh d)
    · rw [update_of_ne same]
      exact laid.distinct d
  · intro d e apart i member inOther
    by_cases left : d = c
    · subst left
      rw [update_self] at member
      rw [update_of_ne apart.symm] at inOther
      rcases mem_append.mp member with old | new
      · exact laid.disjoint d e apart i old inOther
      · exact fresh e (mem_singleton.mp new ▸ inOther)
    · rw [update_of_ne left] at member
      by_cases right : e = c
      · subst right
        rw [update_self] at inOther
        rcases mem_append.mp inOther with old | new
        · exact laid.disjoint d e apart i member old
        · exact fresh d (mem_singleton.mp new ▸ member)
      · rw [update_of_ne right] at inOther
        exact laid.disjoint d e apart i member inOther

theorem visit_fields (waiting : state.queues c = batch :: rest) :
    (state.visit c).queues = update state.queues c rest ∧
      (state.visit c).batchPrev = update state.batchPrev c (some state.batchZero.length) ∧
      (state.visit c).batchZero.length = state.batchZero.length + 1 ∧
      (state.visit c).hasBatchMask = if rest = [] then state.hasBatchMask ^^^ 2 ^ c else state.hasBatchMask := by
  obtain ⟨queues, batchPrev, batchZero, mask⟩ := dequeue_fields waiting
  cases rest <;> simp [FinishState.visit, queues, batchPrev, batchZero, mask, length_linkPrev]

/-- The invariant does not read the mask. -/
theorem Laid.visit (laid : Laid queued (state.dequeue c) places ends) : Laid queued (state.visit c) places ends := by
  unfold FinishState.visit
  dsimp only
  split
  · exact { laid with }
  · exact laid

/-- What one round does: each of the channels gives one batch. -/
structure Round (pending : List Nat) (state next : FinishState) (places places' : Nat → List Nat) : Prop where
  length : next.batchZero.length = state.batchZero.length + pending.length
  queues : ∀ c ∈ pending, next.queues c = (state.queues c).tail
  place : ∀ j c, pending[j]? = some c →
    places' c = places c ++ [state.batchZero.length + j] ∧ next.batchPrev c = some (state.batchZero.length + j)
  others : ∀ c ∉ pending,
    places' c = places c ∧ next.queues c = state.queues c ∧ next.batchPrev c = state.batchPrev c
  mask : ∀ c, next.hasBatchMask.testBit c =
    (state.hasBatchMask.testBit c && decide (c ∈ pending → next.queues c ≠ []))

theorem round_of_pending (unlinked : ∀ c, ∀ batch ∈ queued c, batch.nextJump = 0) (nodup : pending.Nodup)
    (laid : Laid queued state places ends) (waiting : ∀ c ∈ pending, state.queues c ≠ [])
    (marked : ∀ c ∈ pending, state.hasBatchMask.testBit c = true)
    (near : ∀ c ∈ pending, ∀ prev, state.batchPrev c = some prev →
      state.batchZero.length + pending.length < prev + 2 ^ 14) :
    ∃ places' ends', Laid queued (pending.foldl FinishState.visit state) places' ends' ∧
      Round pending state (pending.foldl FinishState.visit state) places places' := by
  induction pending generalizing state places ends with
  | nil => exact ⟨places, ends, laid, by simp, by simp, by simp, by simp, by simp⟩
  | cons c pending ih =>
    obtain ⟨notLater, nodupLater⟩ := nodup_cons.mp nodup
    obtain ⟨batch, rest, isWaiting⟩ := exists_cons_of_ne_nil (waiting c mem_cons_self)
    obtain ⟨queues, batchPrev, length, mask⟩ := visit_fields isWaiting
    have other : ∀ d ∈ pending, d ≠ c := fun d member same => notLater (same ▸ member)
    obtain ⟨ends₁, laid₁⟩ := laid.dequeue unlinked isWaiting fun prev isPrev =>
      lt_of_le_of_lt (Nat.le_add_right _ _) (near c mem_cons_self prev isPrev)
    obtain ⟨places', ends', laid', round⟩ := ih nodupLater laid₁.visit
      (fun d member => by
        rw [queues, update_of_ne (other d member)]
        exact waiting d (mem_cons_of_mem _ member))
      (fun d member => by
        have isMarked := marked d (mem_cons_of_mem _ member)
        rw [mask]
        split
        · simp [isMarked, Ne.symm (other d member)]
        · exact isMarked)
      (fun d member prev isPrev => by
        rw [batchPrev, update_of_ne (other d member)] at isPrev
        have := near d (mem_cons_of_mem _ member) prev isPrev
        rw [length_cons] at this
        omega)
    refine ⟨places', ends', laid', ?_⟩
    rw [foldl_cons]
    obtain ⟨samePlaces, sameQueue, samePrev⟩ := round.others c notLater
    rw [update_self] at samePlaces
    rw [queues, update_self] at sameQueue
    rw [batchPrev, update_self] at samePrev
    refine ⟨?_, forall_mem_cons.mpr ⟨?_, fun d later => ?_⟩, fun j d isNth => ?_, fun d outside => ?_, fun d => ?_⟩
    · rw [round.length, length_cons]
      omega
    · rw [sameQueue, isWaiting, tail_cons]
    · rw [round.queues d later, queues, update_of_ne (other d later)]
    · cases j with
      | zero =>
        obtain rfl : c = d := by simpa using isNth
        exact ⟨samePlaces, samePrev⟩
      | succ j =>
        have apart := other d (mem_of_getElem? isNth)
        obtain ⟨place, prev⟩ := round.place j d isNth
        rw [place, prev, length, update_of_ne apart, add_assoc, add_comm 1 j]
        exact ⟨rfl, rfl⟩
    · obtain ⟨apart, later⟩ := not_or.mp (mt mem_cons.mpr outside)
      obtain ⟨place, queue, prev⟩ := round.others d later
      rw [place, queue, prev, queues, batchPrev]
      simp [update_of_ne apart]
    · rw [round.mask, mask]
      by_cases same : d = c
      · subst same
        have isMarked := marked d mem_cons_self
        cases rest with
        | nil => simp [isMarked, sameQueue]
        | cons => simp [sameQueue]
      · have bit : (if rest = [] then state.hasBatchMask ^^^ 2 ^ c else state.hasBatchMask).testBit d =
            state.hasBatchMask.testBit d := by
          split
          · simp [Ne.symm same]
          · rfl
        rw [bit]
        simp [same]

theorem popFirstOneBit_eq {mask : Nat} {rest : List Nat} (listed : setBits 64 mask = c :: rest) :
    popFirstOneBit mask = (c, mask &&& (mask - 1)) := by
  have first : (range 64).find? mask.testBit = some c := by
    rw [← head?_filter]
    exact congrArg head? listed
  rw [popFirstOneBit, first, Option.getD_some]

/-- The inner loop visits the channels of the mask in ascending order. -/
theorem visitChannels_eq (narrow : tmpMask < 2 ^ 64) (some_bit : tmpMask ≠ 0)
    (enough : (setBits 64 tmpMask).length ≤ turns) (state : FinishState) :
    visitChannels turns tmpMask state = (setBits 64 tmpMask).foldl FinishState.visit state := by
  induction turns generalizing tmpMask state with
  | zero => exact absurd ((setBits_eq_nil narrow).mp (length_eq_zero_iff.mp (Nat.le_zero.mp enough))) some_bit
  | succ turns ih =>
    obtain ⟨c, rest, listed⟩ := exists_cons_of_ne_nil (mt (setBits_eq_nil narrow).mp some_bit)
    have later := setBits_pop listed
    have narrowLater : tmpMask &&& (tmpMask - 1) < 2 ^ 64 := Nat.and_le_left.trans_lt narrow
    rw [visitChannels, listed, foldl_cons, popFirstOneBit_eq listed]
    dsimp only
    by_cases done : tmpMask &&& (tmpMask - 1) = 0
    · rw [if_pos done, ← later, (setBits_eq_nil narrowLater).mpr done, foldl_nil]
    · rw [listed] at enough
      rw [if_neg done, ih narrowLater done (by rw [later]; exact Nat.le_of_succ_le_succ enough), later]

theorem length_setBits_le (width word : Nat) : (setBits width word).length ≤ width :=
  (length_filter_le _ _).trans_eq length_range

/-- Before a round: the mask names the channels with batches left, and their
last batches lie in the round before. -/
structure RoundStart (queued : Nat → List DevWorkBatch) (state : FinishState) (places : Nat → List Nat)
    (ends : Nat → Option (Ends Nat)) : Prop where
  laid : Laid queued state places ends
  narrow : state.hasBatchMask < 2 ^ 64
  mask : ∀ c, state.hasBatchMask.testBit c = true ↔ state.queues c ≠ []
  near : ∀ c prev, state.queues c ≠ [] → state.batchPrev c = some prev → state.batchZero.length ≤ prev + 64

section
variable (start : RoundStart queued state places ends)
include start

theorem RoundStart.mem_setBits_iff (c : Nat) :
    c ∈ setBits 64 state.hasBatchMask ↔ state.queues c ≠ [] := by
  rw [mem_setBits, start.mask, and_iff_right_iff_imp]
  intro waiting
  by_contra large
  have := Nat.ge_two_pow_of_testBit ((start.mask c).mpr waiting)
  have := Nat.pow_le_pow_right (n := 2) (by decide) (Nat.not_lt.mp large)
  exact absurd start.narrow (by omega)

theorem RoundStart.done_iff :
    state.hasBatchMask = 0 ↔ ∀ c, state.queues c = [] := by
  rw [← setBits_eq_nil start.narrow, eq_nil_iff_forall_not_mem]
  exact forall_congr' fun c => (not_congr (start.mem_setBits_iff c)).trans not_not

theorem RoundStart.round (unlinked : ∀ c, ∀ batch ∈ queued c, batch.nextJump = 0)
    (active : state.hasBatchMask ≠ 0) :
    ∃ places' ends', RoundStart queued (visitChannels 64 state.hasBatchMask state) places' ends' ∧
      Round (setBits 64 state.hasBatchMask) state (visitChannels 64 state.hasBatchMask state) places places' := by
  rw [visitChannels_eq start.narrow active (length_setBits_le _ _)]
  have listed := start.mem_setBits_iff
  have count := length_setBits_le 64 state.hasBatchMask
  obtain ⟨places', ends', laid, round⟩ := round_of_pending unlinked (setBits_nodup 64 state.hasBatchMask) start.laid
    (fun c member => (listed c).mp member) (fun c member => (mem_setBits.mp member).2)
    (fun c member prev isPrev => by
      have := start.near c prev ((listed c).mp member) isPrev
      omega)
  refine ⟨places', ends', ⟨laid, ?_, fun c => ?_, fun c prev waiting isPrev => ?_⟩, round⟩
  · refine Nat.lt_pow_two_of_testBit _ fun c large => ?_
    rw [round.mask, Nat.testBit_lt_two_pow (start.narrow.trans_le (Nat.pow_le_pow_right (by decide) large)),
      Bool.false_and]
  · rw [round.mask, Bool.and_eq_true, decide_eq_true_eq, start.mask]
    by_cases member : c ∈ setBits 64 state.hasBatchMask
    · exact ⟨fun both => both.2 member, fun left => ⟨(listed c).mp member, fun _ => left⟩⟩
    · have empty := mt (listed c).mpr member
      rw [(round.others c member).2.1]
      exact ⟨fun both => both.1, fun left => ⟨left, fun inside => absurd inside member⟩⟩
  · by_cases member : c ∈ setBits 64 state.hasBatchMask
    · obtain ⟨j, inside, isNth⟩ := getElem_of_mem member
      have prevEq := (round.place j c (by rw [getElem?_eq_getElem inside, isNth])).2
      rw [prevEq, Option.some.injEq] at isPrev
      rw [round.length]
      omega
    · rw [(round.others c member).2.1] at waiting
      exact absurd ((listed c).mpr waiting) member

omit start in
theorem Round.places_prefix (round : Round pending state next places places') (c : Nat) :
    places c <+: places' c := by
  by_cases member : c ∈ pending
  · obtain ⟨j, inside, isNth⟩ := getElem_of_mem member
    rw [(round.place j c (by rw [getElem?_eq_getElem inside, isNth])).1]
    exact prefix_append _ _
  · rw [(round.others c member).1]

/-- The outer loop ends within as many rounds as the longest queue has batches,
and only adds to the lists of the channels. -/
theorem RoundStart.placeBatches (unlinked : ∀ c, ∀ batch ∈ queued c, batch.nextJump = 0)
    (short : ∀ c, (state.queues c).length ≤ bound) :
    ∃ final places' ends', (∀ rounds, bound ≤ rounds → placeBatches rounds state = some final) ∧
      Laid queued final places' ends' ∧ (∀ c, final.queues c = []) ∧ ∀ c, places c <+: places' c := by
  induction bound generalizing state places ends with
  | zero =>
    have empty : ∀ c, state.queues c = [] := fun c => length_eq_zero_iff.mp (Nat.le_zero.mp (short c))
    refine ⟨state, places, ends, fun rounds _ => ?_, start.laid, empty, fun c => prefix_rfl⟩
    cases rounds <;> rw [NcclCore.placeBatches, if_pos (start.done_iff.mpr empty)]
  | succ bound ih =>
    by_cases done : state.hasBatchMask = 0
    · refine ⟨state, places, ends, fun rounds _ => ?_, start.laid, start.done_iff.mp done, fun c => prefix_rfl⟩
      cases rounds <;> rw [NcclCore.placeBatches, if_pos done]
    · obtain ⟨places₁, ends₁, start₁, round⟩ := start.round unlinked done
      have shorter : ∀ c, ((visitChannels 64 state.hasBatchMask state).queues c).length ≤ bound := by
        intro c
        by_cases member : c ∈ setBits 64 state.hasBatchMask
        · rw [round.queues c member, length_tail]
          exact Nat.sub_le_of_le_add (short c)
        · rw [(round.others c member).2.1, not_not.mp (mt (start.mem_setBits_iff c).mpr member)]
          exact Nat.zero_le _
      obtain ⟨final, places', ends', run, laid, empty, grown⟩ := ih start₁ shorter
      refine ⟨final, places', ends', fun rounds enough => ?_, laid, empty, fun c => ?_⟩
      · obtain ⟨rounds, rfl⟩ := Nat.exists_eq_add_of_le' enough
        rw [← Nat.add_assoc, NcclCore.placeBatches, if_neg done]
        exact run _ (Nat.le_add_left _ _)
      · exact (round.places_prefix c).trans (grown c)

end

/-- Following the links from `start` meets these batches and ends at `stop`. -/
def Walk (table : List DevWorkBatch) : (start : Option Nat) → List DevWorkBatch → (stop : Option Nat) → Prop
  | start, [], stop => start = stop
  | start, batch :: rest, stop => ∃ i jump, start = some i ∧ table[i]? = some (batch.withJump jump) ∧
      Walk table (if jump = 0 then none else some (i + jump)) rest stop

theorem walk_of_linked (linked : Linked (nextBatch table) start nodes none)
    (contents : List.Forall₂ (HoldsBatch table) nodes batches) : Walk table start batches none := by
  induction contents generalizing start with
  | nil => exact linked
  | cons holds _ ih =>
    obtain ⟨here, later⟩ := linked
    obtain ⟨jump, found⟩ := holds
    refine ⟨_, jump, here, found, ih ?_⟩
    rw [nextBatch, found] at later
    exact later

theorem Walk.of_append (walk : Walk table start (first ++ second) stop) :
    ∃ between, Walk table start first between ∧ Walk table between second stop := by
  induction first generalizing start with
  | nil => exact ⟨start, rfl, walk⟩
  | cons batch rest ih =>
    obtain ⟨i, jump, here, found, later⟩ := walk
    obtain ⟨between, walk₁, walk₂⟩ := ih later
    exact ⟨between, ⟨i, jump, here, found, walk₁⟩, walk₂⟩

/-- The list of a channel starts where its first batch was put. -/
theorem Laid.walk (laid : Laid queued state places ends) (empty : state.queues c = []) (first : [i] <+: places c) :
    Walk state.batchZero (some i) (queued c) none := by
  obtain ⟨taken, whole, contents⟩ := laid.content c
  rw [empty, append_nil] at whole
  have held := laid.held c
  obtain ⟨rest, isPlaces⟩ := first
  cases isEnds : ends c with
  | none =>
    rw [isEnds] at held
    rw [show places c = [] from held] at isPlaces
    cases isPlaces
  | some =>
    rw [isEnds] at held
    rw [whole, show some i = (places c).head? by rw [← isPlaces]; rfl, ← held.2.start_eq]
    exact walk_of_linked held.2 contents

/-- The block of the n-th channel finds that channel's queue from index n on. -/
theorem finishPlan_walk (plan : WipPlan) (threadPerBlock : Nat) (narrow : channelMask < 2 ^ 64)
    (unlinked : ∀ c, ∀ batch ∈ (plan.channels c).workBatchQueue, batch.nextJump = 0)
    (masked : ∀ c, channelMask.testBit c = true ↔ (plan.channels c).workBatchQueue ≠ []) :
    ∃ table bound,
      (∀ rounds, bound ≤ rounds → finishPlan rounds threadPerBlock channelMask plan =
        some ⟨max threadPerBlock NCCL_MIN_NTHREADS, channelMask, table⟩) ∧
      ∀ n c, (setBits 64 channelMask)[n]? = some c → Walk table (some n) (plan.channels c).workBatchQueue none := by
  let start : FinishState := ⟨fun c => (plan.channels c).workBatchQueue, channelMask, fun _ => none, []⟩
  have started : RoundStart start.queues start (fun _ => []) (fun _ => none) := by
    refine ⟨⟨fun _ => rfl, fun _ => rfl, fun _ => ⟨[], rfl, .nil⟩, ?_, fun _ => .nil, ?_⟩, narrow, masked, ?_⟩
    · intro c i member; cases member
    · intro c d apart i member; cases member
    · intro c prev waiting isPrev; cases isPrev
  by_cases none_waiting : channelMask = 0
  · refine ⟨[], 0, fun rounds _ => ?_, fun n c isNth => ?_⟩
    · cases rounds <;> simp [finishPlan, placeBatches, none_waiting]
    · rw [(setBits_eq_nil narrow).mpr none_waiting] at isNth
      cases isNth
  · obtain ⟨places₁, ends₁, start₁, round⟩ := started.round unlinked none_waiting
    let bound := (Finset.range 64).sup fun c => ((visitChannels 64 channelMask start).queues c).length
    have short : ∀ c, ((visitChannels 64 channelMask start).queues c).length ≤ bound := by
      intro c
      by_cases inside : c < 64
      · exact Finset.le_sup (f := fun c => ((visitChannels 64 channelMask start).queues c).length)
          (Finset.mem_range.mpr inside)
      · have outside : c ∉ setBits 64 (visitChannels 64 channelMask start).hasBatchMask := fun member =>
          inside (mem_setBits.mp member).1
        rw [not_not.mp (mt (start₁.mem_setBits_iff c).mpr outside)]
        exact Nat.zero_le _
    obtain ⟨final, places', ends', run, laid, empty, grown⟩ := start₁.placeBatches unlinked short
    refine ⟨final.batchZero, bound + 1, fun rounds enough => ?_, fun n c isNth => ?_⟩
    · obtain ⟨rounds, rfl⟩ := Nat.exists_eq_add_of_le' enough
      rw [finishPlan, ← Nat.add_assoc, placeBatches, if_neg none_waiting, run _ (Nat.le_add_left _ _)]
      rfl
    · refine laid.walk (empty c) (.trans ?_ (grown c))
      rw [(round.place n c isNth).1, nil_append, show start.batchZero.length = 0 from rfl, Nat.zero_add]

end NcclCore
