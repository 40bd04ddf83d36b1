import Mathlib.Data.Fintype.Pigeonhole
import Mathlib.Algebra.BigOperators.Fin
import NcclCore.GinProxyQueueProofs
import NcclCore.Lib.Runs
import NcclCore.Lib.Digits

/-! Every descriptor is handed to the backend once, in the order of the indices, and no
slot is used again before its descriptor is completed. The host keeps a counter in 16
bits and compares the indices of a poll after they have wrapped: counters and progress
are right only below. -/
namespace NcclCore
variable {config : GinProxyConfig}

/-- The place that a thread holds in a queue. -/
def GinProxyProducer.placeAt (id : config.QueueId) : GinProxyProducer config → Option Nat
  | idle => none
  | waiting queue place _ _ => if queue = id then some place else none
  | storing queue place _ _ _ => if queue = id then some place else none

/-- The words of the next descriptor that are reset. -/
def GinProxyPc.cleared (id : config.QueueId) : GinProxyPc config → Nat
  | clearing queue _ k _ => if queue = id then k else 0
  | _ => 0

/-- Whether the last descriptor that was seen is not yet submitted. -/
def GinProxyPc.processing (id : config.QueueId) : GinProxyPc config → Bool
  | process queue _ _ _ => queue = id
  | _ => false

/-- The counter that the call with an index asked for. -/
def GinProxyLog.askedAt (log : GinProxyLog) (p : Nat) : Option Nat :=
  (log.posted[p]?).bind fun entry => entry.1.counter.map BitVec.toNat

/-- What the queues are for, in a state of a run. -/
structure GinProxyState.Ordered (state : GinProxyState config) : Prop where
  /-- The requests to the backend are those of the calls, each once and in the order of the indices. -/
  inOrder : ∀ id (p : Nat) request, (state.queues id).log.submitted[p]? = some request →
    ∃ entry aggregate, (state.queues id).log.posted[p]? = some entry ∧
      request = entry.1.request config id (p % config.queueSize) aggregate
  /-- A poll that finds nothing while no thread posts has submitted everything. -/
  noneLost : ∀ id p, state.pc = .poll id p → (state.queues id).isGfdAvailable config = false →
    (∀ thread place, (state.producers thread).placeAt id ≠ some place) →
    (state.queues id).log.submitted.length = (state.queues id).log.posted.length
  /-- An inline value stays in its place until the request is completed. -/
  inlines : ∀ id (p : Nat) entry, (state.queues id).log.posted[p]? = some entry →
    p < (state.queues id).log.submitted.length → p ∉ (state.queues id).log.completed →
    ∀ bits ∈ entry.1.inlined, (state.queues id).inlines (p % config.queueSize) = bits
  /-- A slot is written when the descriptors that were in it are read and completed. -/
  noReuse : ∀ thread id place gfdIdx gfd stored, state.producers thread = .storing id place gfdIdx gfd stored →
    gfdIdx = place % config.queueSize ∧ ∀ earlier < place, earlier % config.queueSize = place % config.queueSize →
      earlier < (state.queues id).log.seen ∧ earlier ∈ (state.queues id).log.completed
  /-- The published index is the consumed one, and everything before it is completed. -/
  published : ∀ id, (state.queues id).ci = (state.queues id).log.consumed % 2 ^ 32 ∧
    ∀ p < (state.queues id).log.consumed, p ∈ (state.queues id).log.completed

/-- What the proxy is to do, in a state of a run. -/
structure GinProxyState.Correct (state : GinProxyState config) : Prop extends state.Ordered where
  /-- At the end of a poll nothing completed is left at the front. -/
  leading : ∀ id i, state.pc = .completions id i → ¬ i < (state.queues id).si →
    (state.queues id).log.consumed ∉ (state.queues id).log.completed
  /-- A counter of a context is the number of its completed descriptors that asked for it. -/
  counted : ∀ (context : Fin config.nContexts) (counter : Nat), counter < config.nCountersPerContext →
    state.counters (context * config.nCountersPerContext + counter) =
      (∑ rank, ((state.queues (context, rank)).log.completed.filter fun p =>
        (state.queues (context, rank)).log.askedAt p = some counter).card) % 2 ^ 64
  /-- A poll consumes a descriptor at the front that is done. -/
  advances : ∀ id answer, state.pc = .completions id (state.queues id).cisShadow →
    (state.queues id).log.consumed < (state.queues id).log.seen →
    (state.queues id).log.consumed ∈ (state.queues id).log.completed ∨ answer = true →
    ((state.host answer).queues id).ci = ((state.queues id).log.consumed + 1) % 2 ^ 32

namespace GinProxyProofs
open GinProxyQueueProofs Lib Function Finset Option List

/-! ### The invariant -/

/-- What a thread that posts relies on. -/
def Holds (queues : config.QueueId → GinProxyQueue) : GinProxyProducer config → Prop
  | .idle => True
  | .waiting id place idx gfd => ∃ call, (queues id).log.posted[place]? = some (call, gfd) ∧ idx = place % 2 ^ 32 ∧
      (queues id).log.stored place = ∅
  | .storing id place gfdIdx gfd stored => ∃ call, (queues id).log.posted[place]? = some (call, gfd) ∧
      gfdIdx = place % config.queueSize ∧ (queues id).log.stored place = stored ∧ stored ≠ univ ∧
      place < (queues id).log.consumed + config.queueSize

/-- What the host relies on. In the loop over completions, `a` is the index without the
wrap: it is the consumed one, or that one is not done and there is no wrap in between. -/
def PcHolds (queues : config.QueueId → GinProxyQueue) : GinProxyPc config → Prop
  | .completions id i => ∃ a, i = a % 2 ^ 32 ∧ (queues id).log.consumed ≤ a ∧ a ≤ (queues id).log.seen ∧
      (a = (queues id).log.consumed ∨
        ((queues id).log.consumed ∉ (queues id).log.completed ∧ a / 2 ^ 32 = (queues id).log.seen / 2 ^ 32))
  | .poll _ _ => True
  | .reading id _ k gfd => 0 < k ∧ ∀ j : Fin 16, j.val < k →
      j ∈ (queues id).log.stored (queues id).log.seen ∧ gfd j = (queues id).log.gfdAt (queues id).log.seen j
  | .clearing id _ k gfd => k ≤ 16 ∧ (queues id).log.stored (queues id).log.seen = univ ∧
      gfd = (queues id).log.gfdAt (queues id).log.seen
  | .process id _ gfd idx => gfd = (queues id).log.gfdAt ((queues id).log.seen - 1) ∧
      idx = ((queues id).log.seen - 1) % config.queueSize ∧ (queues id).log.seen - 1 ∉ (queues id).log.completed

/-- Whether the descriptor with an index raises a counter of the array. -/
def countsFor (id : config.QueueId) (log : GinProxyLog) (x p : Nat) : Bool :=
  (log.counterAt p).map (id.1.val * config.nCountersPerContext + ·) = some x

def counted (id : config.QueueId) (log : GinProxyLog) (x : Nat) : Nat :=
  (log.completed.filter (countsFor id log x ·)).card

/-- How many completed descriptors raise a counter of the array. -/
def tally (queues : config.QueueId → GinProxyQueue) (x : Nat) : Nat := ∑ id, counted id (queues id).log x

structure Inv (state : GinProxyState config) : Prop where
  queues : ∀ id, Sound id (state.pc.cleared id) (state.pc.processing id) (state.queues id)
  producers : ∀ thread, Holds state.queues (state.producers thread)
  distinct : ∀ id place thread other, (state.producers thread).placeAt id = some place →
    (state.producers other).placeAt id = some place → thread = other
  free : ∀ id place, place < (state.queues id).log.posted.length →
    (∀ thread, (state.producers thread).placeAt id ≠ some place) → (state.queues id).log.stored place = univ
  pc : PcHolds state.queues state.pc
  counters : ∀ x, state.counters x = tally state.queues x % 2 ^ 64

theorem inv_init : Inv (GinProxyState.init config) where
  queues _ := sound_init
  producers _ := trivial
  distinct _ _ _ _ holds := by cases holds
  free _ _ bound := absurd bound (Nat.not_lt_zero _)
  pc := ⟨0, rfl, le_rfl, le_rfl, .inl rfl⟩
  counters x := by
    have none : tally (GinProxyState.init config).queues x = 0 := sum_eq_zero fun id _ => rfl
    rw [none]
    rfl

/-- A thread keeps what it relies on when its queue grows. -/
theorem Holds.mono (holds : Holds queues producer)
    (posted : ∀ id (p : Nat) entry, (queues id).log.posted[p]? = some entry → (queues' id).log.posted[p]? = some entry)
    (stored : ∀ id place, producer.placeAt id = some place →
      (queues' id).log.stored place = (queues id).log.stored place)
    (consumed : ∀ id, (queues id).log.consumed ≤ (queues' id).log.consumed) : Holds queues' producer := by
  cases producer with
  | idle => trivial
  | waiting id place idx gfd =>
    obtain ⟨call, isEntry, isIdx, none⟩ := holds
    exact ⟨call, posted id place _ isEntry, isIdx, (stored id place (if_pos rfl)).trans none⟩
  | storing id place gfdIdx gfd words =>
    obtain ⟨call, isEntry, isIdx, isStored, notAll, near⟩ := holds
    exact ⟨call, posted id place _ isEntry, isIdx, (stored id place (if_pos rfl)).trans isStored, notAll,
      near.trans_le (Nat.add_le_add_right (consumed id) _)⟩

/-! ### Steps of the host -/

section
variable {state : GinProxyState config}

section
variable (inv : Inv state)
include inv

/-- A step of the host changes one queue, and nothing that the threads rely on. -/
theorem Inv.of_host (id : config.QueueId) (pc : GinProxyPc config) {counters : Nat → Nat}
    (sound : Sound id (pc.cleared id) (pc.processing id) queue)
    (others : ∀ other, other ≠ id → pc.cleared other = state.pc.cleared other ∧ pc.processing other =
      state.pc.processing other) (posted : queue.log.posted = (state.queues id).log.posted)
    (stored : queue.log.stored = (state.queues id).log.stored)
    (consumed : (state.queues id).log.consumed ≤ queue.log.consumed)
    (holds : PcHolds (update state.queues id queue) pc)
    (counted : ∀ x, counters x = tally (update state.queues id queue) x % 2 ^ 64) :
    Inv { queues := update state.queues id queue, counters, producers := state.producers, pc } := by
  have kept := (forall_update_iff state.queues fun other queue' =>
      queue'.log.posted = (state.queues other).log.posted ∧ queue'.log.stored = (state.queues other).log.stored ∧
        (state.queues other).log.consumed ≤ queue'.log.consumed).mpr
    ⟨⟨posted, stored, consumed⟩, fun _ _ => ⟨rfl, rfl, le_rfl⟩⟩
  refine ⟨fun other => ?_, fun thread => ?_, inv.distinct, fun other place bound none => ?_, holds, counted⟩
  · by_cases same : other = id
    · subst same
      simp only [update_self]
      exact sound
    · simp only [update_of_ne same, others other same]
      exact inv.queues other
  · exact (inv.producers thread).mono (fun other p entry isEntry => (kept other).1 ▸ isEntry)
      (fun other place _ => congrFun (kept other).2.1 place) (fun other => (kept other).2.2)
  · simp only [(kept other).1] at bound
    simp only [(kept other).2.1]
    exact inv.free other place bound none

/-- A step that only moves on. -/
theorem Inv.of_pc {pc : GinProxyPc config}
    (same : ∀ id, pc.cleared id = state.pc.cleared id ∧ pc.processing id = state.pc.processing id)
    (holds : PcHolds state.queues pc) : Inv { state with pc } where
  queues id := by
    simp only [same]
    exact inv.queues id
  pc := holds
  __ := inv

theorem Inv.sound_at {pc : GinProxyPc config} (here : state.pc = pc) (id : config.QueueId) :
    Sound id (pc.cleared id) (pc.processing id) (state.queues id) := here ▸ inv.queues id

theorem holds_pollCompletions (id : config.QueueId) : PcHolds state.queues (state.pollCompletions id) :=
  ⟨(state.queues id).log.consumed, (inv.queues id).shadow, le_rfl, (inv.queues id).consumed_le, .inl rfl⟩

end

variable {id : config.QueueId}

theorem Inv.afterCompletions (inv : Inv state) (here : state.pc = .completions id i) :
    Inv { state with pc := state.afterCompletions id } := by
  rw [GinProxyState.afterCompletions]
  split
  · exact inv.of_pc (fun _ => here ▸ ⟨rfl, rfl⟩) (holds_pollCompletions inv _)
  · exact inv.of_pc (fun _ => here ▸ ⟨rfl, rfl⟩) trivial

theorem Inv.afterPolls (inv : Inv state) (here : state.pc = .poll id p) :
    Inv { state with pc := state.afterPolls id } := by
  rw [GinProxyState.afterPolls]
  split
  · exact inv.of_pc (fun _ => here ▸ ⟨rfl, rfl⟩) trivial
  · split <;> exact inv.of_pc (fun _ => here ▸ ⟨rfl, rfl⟩) (holds_pollCompletions inv _)

/-! #### Completions -/

theorem tally_update (id : config.QueueId)
    (here : counted id queue.log x = counted id (queues id).log x + extra) :
    tally (update queues id queue) x = tally queues x + extra := by
  have each : ∀ other, counted other (update queues id queue other).log x =
      counted other (queues other).log x + if other = id then extra else 0 := by
    intro other
    by_cases same : other = id
    · subst same
      rw [update_self, if_pos rfl, here]
    · rw [update_of_ne same, if_neg same, add_zero]
  simp [tally, each, sum_add_distrib]

theorem countsFor_of_posted (posted : log'.posted = log.posted) (x : Nat) :
    countsFor id log' x = countsFor id log x := by
  funext p
  rw [countsFor, countsFor, GinProxyLog.counterAt, GinProxyLog.counterAt, posted]

theorem tally_of_same (id : config.QueueId)
    (posted : queue.log.posted = (queues id).log.posted) (completed : queue.log.completed = (queues id).log.completed)
    (x : Nat) : tally (update queues id queue) x = tally queues x := by
  have none : counted id queue.log x = counted id (queues id).log x + 0 := by
    rw [counted, counted, countsFor_of_posted posted, completed, add_zero]
  exact tally_update id none

theorem Inv.counters_same (inv : Inv state) (posted : queue.log.posted = (state.queues id).log.posted)
    (completed : queue.log.completed = (state.queues id).log.completed) (x : Nat) :
    state.counters x = tally (update state.queues id queue) x % 2 ^ 64 := by
  rw [tally_of_same id posted completed, inv.counters]

/-- A completed descriptor counts for its own counter. -/
theorem tally_of_complete (id : config.QueueId) (posted : queue.log.posted = (queues id).log.posted)
    (completed : queue.log.completed = insert a (queues id).log.completed) (new : a ∉ (queues id).log.completed)
    (x : Nat) : tally (update queues id queue) x =
      tally queues x + if countsFor id (queues id).log x a then 1 else 0 := by
  refine tally_update id ?_
  rw [counted, countsFor_of_posted posted, completed, filter_insert]
  split
  · exact card_insert_of_notMem fun member => new (mem_filter.mp member).1
  · rfl

theorem test_log (config : GinProxyConfig) (queue : GinProxyQueue) (i : Nat) (answer : Bool) :
    (queue.test config i answer).log.posted = queue.log.posted ∧
      (queue.test config i answer).log.stored = queue.log.stored ∧
      (queue.test config i answer).log.consumed = queue.log.consumed ∧
      (queue.test config i answer).log.seen = queue.log.seen := by
  rw [GinProxyQueue.test]
  split <;> exact ⟨rfl, rfl, rfl, rfl⟩

theorem consume_log (config : GinProxyConfig) (queue : GinProxyQueue) (i : Nat) :
    (queue.consume config i).log.posted = queue.log.posted ∧ (queue.consume config i).log.stored = queue.log.stored ∧
      (queue.consume config i).log.completed = queue.log.completed ∧
      (queue.consume config i).log.seen = queue.log.seen := by
  rw [GinProxyQueue.consume]
  split <;> exact ⟨rfl, rfl, rfl, rfl⟩

/-- What a test does to the completed descriptors and the counters. -/
theorem test_cases
    (sound : Sound id cleared processing queue) (lower : queue.log.consumed ≤ a) (upper : a < queue.log.seen)
    (answer : Bool) :
    (a ∉ queue.log.completed ∧ answer = true ∧
      (queue.test config (a % 2 ^ 32) answer).log.completed = insert a queue.log.completed ∧
      queue.raised config (a % 2 ^ 32) answer = queue.log.counterAt a) ∨ ((a ∈ queue.log.completed ∨ answer = false) ∧
      (queue.test config (a % 2 ^ 32) answer).log.completed = queue.log.completed ∧
      queue.raised config (a % 2 ^ 32) answer = none) := by
  obtain ⟨counter, done⟩ := sound.states a lower upper
  have place := sound.place_eq lower upper.le
  rw [GinProxyQueue.test, GinProxyQueue.raised]
  simp only [slotOf_mod, place]
  by_cases fresh : a ∉ queue.log.completed ∧ answer = true
  · obtain ⟨new, rfl⟩ := fresh
    have isOpen := Bool.eq_false_iff.mpr fun isDone => new (done.mp isDone)
    refine .inl ⟨new, rfl, ?_, ?_⟩
    · rw [isOpen]
      rfl
    · rw [isOpen, ← counter]
      rfl
  · have still : (!(queue.states (a % config.queueSize)).done && answer) = false := by
      rw [← Bool.not_eq_true, Bool.and_eq_true, Bool.not_eq_true', ← Bool.not_eq_true]
      exact fun both => fresh ⟨fun member => both.1 (done.mpr member), both.2⟩
    refine .inr ⟨(not_and_or.mp fresh).imp not_not.mp Bool.eq_false_iff.mpr, ?_, ?_⟩
    · rw [still]
      rfl
    · rw [still]
      rfl

/-- What an iteration does to the consumed index. -/
theorem consume_cases
    (sound : Sound id cleared processing queue) (lower : queue.log.consumed ≤ a) (upper : a < queue.log.seen) :
    (a = queue.log.consumed ∧ a ∈ queue.log.completed ∧ (queue.consume config (a % 2 ^ 32)).log.consumed = a + 1) ∨
    ((a = queue.log.consumed → a ∉ queue.log.completed) ∧
      (queue.consume config (a % 2 ^ 32)).log.consumed = queue.log.consumed) := by
  have done := (sound.states a lower upper).2
  have front := sound.eq_shadow_iff lower upper.le
  rw [GinProxyQueue.consume, slotOf_mod]
  split
  next both =>
    have isFront := front.mp both.2
    refine .inl ⟨isFront, done.mp both.1, ?_⟩
    rw [isFront]
  next neither =>
    exact .inr ⟨fun isFront member => neither ⟨done.mpr member, front.mpr isFront⟩, rfl⟩

/-- What is raised is what is counted. -/
theorem raise_counters (state : GinProxyState config) (id : config.QueueId) (raised : Option Nat) (x : Nat) :
    (state.raise id.1 raised).counters x = if raised.map (id.1.val * config.nCountersPerContext + ·) = some x then
      (state.counters x + 1) % 2 ^ 64 else state.counters x := by
  cases raised with
  | none => rfl
  | some counter =>
    simp only [GinProxyState.raise, map_some, some.injEq]
    by_cases same : id.1.val * config.nCountersPerContext + counter = x
    · subst same
      rw [if_pos rfl, update_self]
    · rw [if_neg same, update_of_ne (Ne.symm same)]

theorem raise_setQueue (state : GinProxyState config) (id : config.QueueId) (queue : GinProxyQueue) (context : Nat)
    (raised : Option Nat) (pc : GinProxyPc config) :
    { (state.setQueue id queue).raise context raised with pc } =
      { queues := update state.queues id queue
        counters := (state.raise context raised).counters
        producers := state.producers
        pc } := by
  cases raised <;> rfl

/-- The counters after an iteration of the loop. -/
theorem counters_of_test (inv : Inv state) (lower : (state.queues id).log.consumed ≤ a)
    (upper : a < (state.queues id).log.seen) (posted : queue.log.posted = (state.queues id).log.posted)
    (completed : queue.log.completed = ((state.queues id).test config (a % 2 ^ 32) answer).log.completed) (x : Nat) :
    (state.raise id.1 ((state.queues id).raised config (a % 2 ^ 32) answer)).counters x =
      tally (update state.queues id queue) x % 2 ^ 64 := by
  have before := inv.counters x
  rw [raise_counters]
  rcases test_cases (inv.queues id) lower upper answer with ⟨new, -, grown, raised⟩ | ⟨-, same, none⟩
  · rw [tally_of_complete id posted (completed.trans grown) new, raised]
    have isCounter : countsFor id (state.queues id).log x a =
        decide (((state.queues id).log.counterAt a).map (id.1.val * config.nCountersPerContext + ·) = some x) := rfl
    rw [isCounter]
    by_cases counts : ((state.queues id).log.counterAt a).map (id.1.val * config.nCountersPerContext + ·) = some x
    · rw [if_pos counts, if_pos (decide_eq_true counts)]
      omega
    · rw [if_neg counts, if_neg (by simpa using counts), before, add_zero]
  · rw [tally_of_same id posted (completed.trans same), none]
    exact before

theorem host_completions_end (here : state.pc = .completions id i) (ends : ¬ i < (state.queues id).si) (answer : Bool) :
    state.host answer = { state with pc := state.afterCompletions id } := by
  rw [GinProxyState.host, here]
  exact if_neg ends

theorem host_completions (here : state.pc = .completions id i) (more : i < (state.queues id).si) (answer : Bool) :
    state.host answer =
      { queues := update state.queues id (((state.queues id).test config i answer).consume config i)
        counters := (state.raise id.1 ((state.queues id).raised config i answer)).counters
        producers := state.producers
        pc := .completions id ((i + 1) % 2 ^ 32) } := by
  rw [← raise_setQueue, GinProxyState.host, here]
  exact if_pos more

theorem Inv.completions (inv : Inv state) {i : Nat} (here : state.pc = .completions id i)
    (more : i < (state.queues id).si) (answer : Bool) : Inv (state.host answer) := by
  obtain ⟨a, rfl, lower, upper, near⟩ : PcHolds state.queues (.completions id i) := here ▸ inv.pc
  have sound := inv.sound_at here id
  -- the index is before the seen one, with no wrap in between
  obtain ⟨below, noWrap⟩ : a < (state.queues id).log.seen ∧ a / 2 ^ 32 = (state.queues id).log.seen / 2 ^ 32 := by
    have window := sound.window
    have small := queueSize_lt config
    rw [sound.si] at more
    omega
  obtain ⟨testPosted, testStored, testConsumed, testSeen⟩ := test_log config (state.queues id) (a % 2 ^ 32) answer
  obtain ⟨posted, stored, completed, seen⟩ :=
    consume_log config ((state.queues id).test config (a % 2 ^ 32) answer) (a % 2 ^ 32)
  have tested := sound.test lower below answer
  have lower' : ((state.queues id).test config (a % 2 ^ 32) answer).log.consumed ≤ a := testConsumed ▸ lower
  have below' : a < ((state.queues id).test config (a % 2 ^ 32) answer).log.seen := testSeen ▸ below
  rw [host_completions here more answer]
  have moved := consume_cases tested lower' below'
  rw [testConsumed] at moved
  refine inv.of_host id _ (tested.consume lower' below') (fun _ _ => here ▸ ⟨rfl, rfl⟩) (posted.trans testPosted)
    (stored.trans testStored) ?_ ?_ (counters_of_test inv lower below (posted.trans testPosted) completed)
  · rcases moved with ⟨isFront, -, next⟩ | ⟨-, same⟩ <;> omega
  · refine ⟨a + 1, by omega, ?_⟩
    simp only [update_self, completed, seen, testSeen]
    rcases moved with ⟨isFront, -, next⟩ | ⟨front, same⟩
    · rw [next]
      exact ⟨le_rfl, below, .inl rfl⟩
    · rw [same]
      refine ⟨by omega, below, .inr ⟨?_, by omega⟩⟩
      -- the consumed index is not done: it is tested here, or it was before
      by_cases isFront : a = (state.queues id).log.consumed
      · exact isFront ▸ front isFront
      · obtain ⟨open_, -⟩ := near.resolve_left isFront
        rcases test_cases sound lower below answer with ⟨-, -, grown, -⟩ | ⟨-, kept, -⟩
        · rw [grown, mem_insert, not_or]
          exact ⟨Ne.symm isFront, open_⟩
        · rwa [kept]

/-! #### Descriptors -/

/-- A word of the next slot has its flag exactly if it is stored. -/
theorem flag_iff (sound : Sound id 0 processing queue)
    (k : Fin 16) : GinProxyGfd.flag.get (queue.gfds (config.slotOf queue.si) k) ≠ 0 ↔
      k ∈ queue.log.stored queue.log.seen := by
  rw [sound.si, slotOf_mod]
  constructor
  · intro isSet
    by_contra missing
    have clear : queue.gfds (queue.log.seen % config.queueSize) k = 0 := by
      have window := sound.window
      rcases Nat.lt_or_ge queue.log.seen (queue.log.consumed + config.queueSize) with near | full
      · exact sound.absent _ sound.consumed_le near k fun present => missing present.1
      · -- the slot of the first descriptor that is not consumed, which was reset
        have isFull : queue.log.seen = queue.log.consumed + config.queueSize := by omega
        have pos := queueSize_pos config
        rw [isFull, Nat.add_mod_right]
        refine sound.absent _ le_rfl (by omega) k fun present => ?_
        rcases present.2 with later | ⟨next, -⟩ <;> omega
    rw [clear] at isSet
    exact isSet (by decide)
  · intro member
    obtain ⟨memory, built⟩ := sound.built _ _ (getElem?_eq_getElem (sound.stored_lt _ _ member).1)
    rw [sound.present _ k ⟨member, .inr ⟨rfl, Nat.zero_le _⟩⟩, GinProxyLog.gfdAt,
      getElem?_eq_getElem (sound.stored_lt _ _ member).1, map_some, getD_some, built,
      GinProxyGfdProofs.flag_buildGfd]
    decide

theorem word_eq (sound : Sound id 0 processing queue) (member : k ∈ queue.log.stored queue.log.seen) :
    queue.gfds (config.slotOf queue.si) k = queue.log.gfdAt queue.log.seen k := by
  rw [sound.si, slotOf_mod]
  exact sound.present _ k ⟨member, .inr ⟨rfl, Nat.zero_le _⟩⟩

theorem Inv.poll (inv : Inv state) (here : state.pc = .poll id p) (answer : Bool) : Inv (state.host answer) := by
  have sound := inv.sound_at here id
  rw [GinProxyState.host, here]
  simp only
  split
  next both =>
    have member := (flag_iff sound 0).mp (of_decide_eq_true both.2)
    refine inv.of_pc (fun _ => here ▸ ⟨rfl, rfl⟩) ⟨one_pos, fun j first => ?_⟩
    have isFirst : j = 0 := Fin.ext (by simpa using first)
    rw [isFirst]
    exact ⟨member, word_eq sound member⟩
  · exact inv.afterPolls here

theorem Inv.reading (inv : Inv state) (here : state.pc = .reading id p k gfd) (answer : Bool) :
    Inv (state.host answer) := by
  have sound := inv.sound_at here id
  obtain ⟨pos, copied⟩ : PcHolds state.queues (.reading id p k gfd) := here ▸ inv.pc
  rw [GinProxyState.host, here]
  simp only
  split
  next more =>
    split
    · exact inv
    next isSet =>
      have member := (flag_iff sound ⟨k, more⟩).mp isSet
      refine inv.of_pc (fun _ => here ▸ ⟨rfl, rfl⟩) ⟨Nat.succ_pos _, fun j upTo => ?_⟩
      by_cases isLast : j = ⟨k, more⟩
      · rw [isLast, update_self]
        exact ⟨member, word_eq sound member⟩
      · rw [update_of_ne isLast]
        refine copied j (Nat.lt_of_le_of_ne (Nat.le_of_lt_succ upTo) fun same => isLast (Fin.ext same))
  next done =>
    refine inv.of_pc (fun other => ?_) ⟨Nat.zero_le _, ?_, ?_⟩
    · rw [here]
      exact ⟨ite_self _, rfl⟩
    · exact eq_univ_of_forall fun j => (copied j (by omega)).1
    · exact funext fun j => (copied j (by omega)).2

theorem Inv.clearing (inv : Inv state) {p k : Nat}
    (here : state.pc = .clearing id p k gfd) (answer : Bool) : Inv (state.host answer) := by
  have sound : Sound id k false (state.queues id) := by
    simpa [here, GinProxyPc.cleared, GinProxyPc.processing] using inv.queues id
  obtain ⟨bound, all, rfl⟩ : PcHolds state.queues (.clearing id p k gfd) := here ▸ inv.pc
  rw [GinProxyState.host, here]
  simp only
  split
  next more =>
    refine inv.of_host id _ ?_ (fun other isOther => ?_) rfl rfl le_rfl ?_ (inv.counters_same rfl rfl)
    · simpa [GinProxyPc.cleared, GinProxyPc.processing] using sound.clear all more
    · rw [here]
      exact ⟨(if_neg isOther.symm).trans (if_neg isOther.symm).symm, rfl⟩
    · simp only [PcHolds, update_self]
      exact ⟨more, all, rfl⟩
  next done =>
    obtain rfl : k = 16 := by omega
    have slot : config.slotOf (state.queues id).si = (state.queues id).log.seen % config.queueSize := by
      rw [sound.si, slotOf_mod]
    refine inv.of_host id _ ?_ (fun other isOther => ?_) rfl rfl le_rfl ?_ (inv.counters_same rfl rfl)
    · simpa [GinProxyPc.cleared, GinProxyPc.processing] using sound.see all
    · rw [here]
      exact ⟨(if_neg isOther.symm).symm, decide_eq_false isOther.symm⟩
    · simp only [PcHolds, update_self]
      refine ⟨rfl, slot, fun member => lt_irrefl _ (sound.completed_lt _ member)⟩

theorem process_log (queue : GinProxyQueue) (gfd : GinProxyGfd) (idx : Nat) (isLastInBatch answer : Bool) :
    (queue.process config id gfd idx isLastInBatch answer).log.posted = queue.log.posted ∧
      (queue.process config id gfd idx isLastInBatch answer).log.stored = queue.log.stored ∧
      (queue.process config id gfd idx isLastInBatch answer).log.consumed = queue.log.consumed := by
  rw [GinProxyQueue.process]
  split <;> exact ⟨rfl, rfl, rfl⟩

/-- A request that may be completed at once has no counter. -/
theorem process_completed (sound : Sound id 0 true queue) (isLastInBatch answer : Bool) :
    let next := queue.process config id (queue.log.gfdAt (queue.log.seen - 1))
      ((queue.log.seen - 1) % config.queueSize) isLastInBatch answer
    next.log.completed = queue.log.completed ∨
      (next.log.completed = insert (queue.log.seen - 1) queue.log.completed ∧
        queue.log.counterAt (queue.log.seen - 1) = none) := by
  obtain ⟨entry, memory, last, isEntry, isGfd⟩ := sound.last_entry
  rw [GinProxyQueue.process]
  simp only [isGfd, GinProxyGfdProofs.request_buildGfd, any_some]
  split
  next both =>
    refine .inr ⟨rfl, ?_⟩
    obtain ⟨isFlush, -⟩ := Bool.and_eq_true_iff.mp both
    rw [GinProxyLog.counterAt, show queue.log.seen - 1 = queue.log.submitted.length by omega, isEntry]
    cases call : entry.1 with
    | put source dstOff dstHandle signal counter isStrong =>
      rw [call] at isFlush
      cases signal <;> cases isFlush
    | vaSignal | get =>
      rw [call] at isFlush
      cases isFlush
    | flush =>
      rw [bind_some, call]
      rfl
  · exact .inl rfl

theorem Inv.process (inv : Inv state) {p idx : Nat}
    (here : state.pc = .process id p gfd idx) (answer : Bool) : Inv (state.host answer) := by
  have sound : Sound id 0 true (state.queues id) := by
    simpa [here, GinProxyPc.cleared, GinProxyPc.processing] using inv.queues id
  obtain ⟨rfl, rfl, fresh⟩ : PcHolds state.queues (.process id p gfd idx) := here ▸ inv.pc
  rw [GinProxyState.host, here]
  refine inv.of_host id _ (sound.process fresh _ answer) (fun other isOther => ?_) ?_ ?_ ?_ trivial fun x => ?_
  · rw [here]
    exact ⟨rfl, (decide_eq_false isOther.symm).symm⟩
  · exact (process_log _ _ _ _ _).1
  · exact (process_log _ _ _ _ _).2.1
  · exact le_of_eq (process_log _ _ _ _ _).2.2.symm
  · rcases process_completed sound (p + 1 = config.pollBatch) answer with same | ⟨grown, none⟩
    · exact inv.counters_same (process_log _ _ _ _ _).1 same x
    · have uncounted : countsFor id (state.queues id).log x ((state.queues id).log.seen - 1) = false := by
        rw [countsFor, none]
        rfl
      rw [tally_of_complete id (process_log _ _ _ _ _).1 grown fresh, uncounted]
      exact inv.counters x

theorem Inv.host (inv : Inv state) (answer : Bool) : Inv (state.host answer) := by
  cases here : state.pc with
  | completions id i =>
    by_cases more : i < (state.queues id).si
    · exact inv.completions here more answer
    · rw [host_completions_end here more]
      exact inv.afterCompletions here
  | poll => exact inv.poll here answer
  | reading => exact inv.reading here answer
  | clearing => exact inv.clearing here answer
  | process => exact inv.process here answer

end

/-! ### Steps of the threads -/

section
variable {state next : GinProxyState config}
variable {id : config.QueueId} {place : Nat}

/-- A thread that holds a place has its queue's entry there. -/
theorem Inv.entry (inv : Inv state)
    (holds : (state.producers thread).placeAt id = some place) : place < (state.queues id).log.posted.length := by
  have relies := inv.producers thread
  generalize state.producers thread = producer at holds relies
  cases producer with
  | idle => cases holds
  | waiting | storing =>
    obtain ⟨call, isEntry, -⟩ := relies
    obtain ⟨rfl, rfl⟩ := of_ite_some holds
    exact (List.getElem?_eq_some_iff.mp isEntry).1

/-- What a thread does to a queue: it adds calls and stores words. -/
structure Grows (queue queue' : GinProxyQueue) : Prop where
  posted : ∀ p : Nat, p < queue.log.posted.length → queue'.log.posted[p]? = queue.log.posted[p]?
  stored : ∀ place, queue.log.stored place ⊆ queue'.log.stored place
  seen : queue'.log.seen = queue.log.seen
  consumed : queue'.log.consumed = queue.log.consumed
  completed : queue'.log.completed = queue.log.completed

theorem Grows.refl (queue : GinProxyQueue) : Grows queue queue :=
  ⟨fun _ _ => rfl, fun _ => Finset.Subset.refl _, rfl, rfl, rfl⟩

/-- What the host relies on stays when a queue grows. -/
theorem PcHolds.mono (holds : PcHolds queues pc)
    (sound : ∀ id, Sound id (pc.cleared id) (pc.processing id) (queues id))
    (grows : ∀ id, Grows (queues id) (queues' id)) : PcHolds queues' pc := by
  have same : ∀ id p, p < (queues id).log.posted.length → (queues' id).log.gfdAt p = (queues id).log.gfdAt p := by
    intro id p bound
    rw [GinProxyLog.gfdAt, GinProxyLog.gfdAt, (grows id).posted p bound]
  cases pc with
  | completions id i =>
    rw [PcHolds, (grows id).seen, (grows id).consumed, (grows id).completed]
    exact holds
  | poll => trivial
  | reading id p k gfd =>
    obtain ⟨pos, copied⟩ := holds
    refine ⟨pos, fun j upTo => ?_⟩
    obtain ⟨member, isWord⟩ := copied j upTo
    rw [(grows id).seen, same _ _ ((sound id).stored_lt _ _ member).1]
    exact ⟨(grows id).stored _ member, isWord⟩
  | clearing id p k gfd =>
    obtain ⟨bound, all, isGfd⟩ := holds
    rw [PcHolds, (grows id).seen, same _ _ ((sound id).next_bounds all).1]
    exact ⟨bound, univ_subset_iff.mp (all ▸ (grows id).stored _), isGfd⟩
  | process id p gfd idx =>
    have length : (queues id).log.submitted.length + 1 = (queues id).log.seen := by
      have submitted := (sound id).submitted
      simpa [GinProxyPc.processing] using submitted
    have bound := (sound id).seen_le
    rw [PcHolds, (grows id).seen, (grows id).completed, same _ _ (by omega)]
    exact holds

section
variable (inv : Inv state)
include inv

/-- A step of a thread that does something to one queue. A place that it leaves has all its
words, and one that is new is its own. -/
theorem Inv.of_thread (thread : Fin config.nThreads) (id : config.QueueId)
    (sound : Sound id (state.pc.cleared id) (state.pc.processing id) queue) (grows : Grows (state.queues id) queue)
    (stored_others : ∀ other, other ≠ thread → ∀ place, (state.producers other).placeAt id = some place →
      queue.log.stored place = (state.queues id).log.stored place)
    (holds : Holds (update state.queues id queue) producer)
    (distinct : ∀ queue place, producer.placeAt queue = some place →
      ∀ other, other ≠ thread → (state.producers other).placeAt queue ≠ some place)
    (left : ∀ other place, (state.producers thread).placeAt other = some place →
      producer.placeAt other = some place ∨ (other = id ∧ queue.log.stored place = univ))
    (new : ∀ place, place < queue.log.posted.length →
      place < (state.queues id).log.posted.length ∨ producer.placeAt id = some place) :
    Inv ((state.setQueue id queue).setProducer thread producer) := by
  have each := (forall_update_iff state.queues fun other => Grows (state.queues other)).mpr ⟨grows, fun _ _ => .refl _⟩
  refine ⟨?_, fun other => ?_, fun place_queue place first second => ?_, ?_, ?_, fun x => ?_⟩
  · exact (forall_update_iff state.queues fun other => Sound other (state.pc.cleared other)
      (state.pc.processing other)).mpr ⟨sound, fun other _ => inv.queues other⟩
  · change Holds (update state.queues id queue) (update state.producers thread producer other)
    by_cases same : other = thread
    · subst same
      rwa [update_self]
    · rw [update_of_ne same]
      refine (inv.producers other).mono (fun queue_id p entry isEntry => ?_) ?_ fun id => (each id).consumed.ge
      · rwa [(each queue_id).posted p (List.getElem?_eq_some_iff.mp isEntry).1]
      · exact (forall_update_iff state.queues fun queue_id queue => ∀ place,
          (state.producers other).placeAt queue_id = some place →
            queue.log.stored place = (state.queues queue_id).log.stored place).mpr
          ⟨stored_others other same, fun _ _ _ _ => rfl⟩
  · change (update state.producers thread producer first).placeAt place_queue = some place →
      (update state.producers thread producer second).placeAt place_queue = some place → first = second
    by_cases isFirst : first = thread <;> by_cases isSecond : second = thread
    · intro _ _
      rw [isFirst, isSecond]
    · subst isFirst
      rw [update_self, update_of_ne isSecond]
      exact fun mine theirs => absurd theirs (distinct _ _ mine _ isSecond)
    · subst isSecond
      rw [update_self, update_of_ne isFirst]
      exact fun theirs mine => absurd theirs (distinct _ _ mine _ isFirst)
    · rw [update_of_ne isFirst, update_of_ne isSecond]
      exact inv.distinct _ _ _ _
  · intro other place bound nobody
    change place < (update state.queues id queue other).log.posted.length at bound
    change (update state.queues id queue other).log.stored place = univ
    have notMine : producer.placeAt other ≠ some place := update_self thread producer state.producers ▸ nobody thread
    by_cases mine : (state.producers thread).placeAt other = some place
    · obtain ⟨rfl, all⟩ := (left other place mine).resolve_left notMine
      rwa [update_self]
    · have unheld : ∀ thread', (state.producers thread').placeAt other ≠ some place := by
        intro thread' theirs
        by_cases same : thread' = thread
        · exact mine (same ▸ theirs)
        · exact nobody thread' ((congrArg _ (update_of_ne same _ _)).trans theirs)
      have before : place < (state.queues other).log.posted.length := by
        by_cases same : other = id
        · subst same
          rw [update_self] at bound
          exact (new place bound).resolve_right notMine
        · rwa [update_of_ne same] at bound
      exact univ_subset_iff.mp (inv.free other place before unheld ▸ (each other).stored place)
  · exact inv.pc.mono inv.queues each
  · refine (inv.counters x).trans (congrArg (· % 2 ^ 64) ?_)
    have none : counted id queue.log x = counted id (state.queues id).log x + 0 := by
      rw [counted, grows.completed]
      refine congrArg card (filter_congr fun p member => ?_)
      have bound := ((inv.queues id).completed_lt p member).trans_le (inv.queues id).seen_le
      rw [countsFor, countsFor, GinProxyLog.counterAt, GinProxyLog.counterAt, grows.posted p bound]
    exact (tally_update id none).symm

theorem Inv.claim (isIdle : state.producers thread = .idle)
    (id : config.QueueId) (call : GinProxyCall) (memory : GinProxyGfd)
    (allowed : ∀ counter ∈ call.counter, counter.toNat < config.nCountersPerContext) :
    Inv ((state.setQueue id ((state.queues id).claim call (buildGfd memory call.args))).setProducer thread
      (.waiting id (state.queues id).log.posted.length (state.queues id).pi (buildGfd memory call.args))) := by
  have sound := inv.queues id
  have unstored := eq_empty_of_forall_notMem fun k member => lt_irrefl _ (sound.stored_lt _ k member).1
  refine inv.of_thread thread id (sound.claim call memory allowed)
    ⟨fun p bound => getElem?_append_left bound, fun _ => Finset.Subset.refl _, rfl, rfl, rfl⟩ (fun _ _ _ _ => rfl)
    ?_ ?_ ?_ ?_
  · refine ⟨call, ?_, sound.pi, ?_⟩
    · rw [update_self]
      exact getElem?_concat_length
    · rw [update_self]
      exact unstored
  · intro queue place mine other isOther theirs
    obtain ⟨rfl, rfl⟩ := of_ite_some mine
    exact lt_irrefl _ (inv.entry theirs)
  · intro other place mine
    rw [isIdle] at mine
    cases mine
  · intro place bound
    simp only [GinProxyQueue.claim, length_append, length_singleton] at bound
    rcases Nat.lt_or_eq_of_le (Nat.le_of_lt_succ bound) with before | rfl
    · exact .inl before
    · exact .inr (if_pos rfl)

/-- The claimed indices span less than a wrap: those outside of the window are held by
different threads. -/
theorem Inv.place_lt (enough : config.nThreads + config.queueSize ≤ 2 ^ 32) (id : config.QueueId)
    (bound : place < (state.queues id).log.posted.length) : place < (state.queues id).log.consumed + 2 ^ 32 := by
  by_contra far
  have held : ∀ i : Fin (config.nThreads + 1), ∃ thread, (state.producers thread).placeAt id =
      some ((state.queues id).log.consumed + config.queueSize + i) := by
    intro i
    by_contra none
    have all := inv.free id ((state.queues id).log.consumed + config.queueSize + i) (by omega)
      fun thread holds => none ⟨thread, holds⟩
    have near := ((inv.queues id).stored_lt _ 0 (all ▸ mem_univ 0)).2
    omega
  choose holder holds using held
  obtain ⟨i, j, differ, same⟩ := Fintype.exists_ne_map_eq_of_card_lt holder (by simp)
  have equal := (holds i).symm.trans (same ▸ holds j)
  exact differ (Fin.ext (by simpa using equal))

theorem Inv.above_of_not_all (id : config.QueueId)
    (missing : (state.queues id).log.stored place ≠ univ) : (state.queues id).log.consumed ≤ place := by
  have lower := (inv.queues id).consumed_le
  by_contra passed
  exact missing ((inv.queues id).stored_seen place (by omega))

theorem Inv.credit (enough : config.nThreads + config.queueSize ≤ 2 ^ 32)
    (isWaiting : state.producers thread = .waiting id place idx gfd)
    (credits : ¬ config.queueSize ≤ (idx + 2 ^ 32 - (state.queues id).ci) % 2 ^ 32) :
    Inv (state.setProducer thread (.storing id place (config.slotOf idx) gfd ∅)) := by
  obtain ⟨call, isEntry, rfl, none⟩ : Holds state.queues (.waiting id place idx gfd) := isWaiting ▸ inv.producers thread
  have notAll : (∅ : Finset (Fin 16)) ≠ univ := by decide
  have near : place < (state.queues id).log.consumed + config.queueSize := by
    have reach := inv.place_lt enough id (List.getElem?_eq_some_iff.mp isEntry).1
    rw [(inv.queues id).ci] at credits
    omega
  have unchanged : state.setQueue id (state.queues id) = state := by
    rw [GinProxyState.setQueue, update_eq_self]
  have places : ∀ queue, (GinProxyProducer.storing id place (config.slotOf (place % 2 ^ 32)) gfd ∅).placeAt queue =
      (state.producers thread).placeAt queue := fun _ => isWaiting ▸ rfl
  rw [← unchanged]
  refine inv.of_thread thread id (inv.queues id) (.refl _) (fun _ _ _ _ => rfl) ?_ ?_
    (fun queue held mine => .inl ((places queue).trans mine)) fun _ bound => .inl bound
  · rw [update_eq_self]
    exact ⟨call, isEntry, slotOf_mod config place, none, notAll, near⟩
  · intro queue held mine other isOther theirs
    exact isOther (inv.distinct queue held other thread theirs (places queue ▸ mine))

theorem Inv.store (isStoring : state.producers thread = .storing id place gfdIdx gfd stored) (new : word ∉ stored) :
    Inv ((state.setQueue id ((state.queues id).store place gfdIdx gfd word)).setProducer thread
      (if insert word stored = univ then .idle else .storing id place gfdIdx gfd (insert word stored))) := by
  obtain ⟨call, isEntry, rfl, isStored, notAll, near⟩ : Holds state.queues (.storing id place gfdIdx gfd stored) :=
    isStoring ▸ inv.producers thread
  have above := inv.above_of_not_all id (isStored ▸ notAll)
  have mine : (state.producers thread).placeAt id = some place := isStoring ▸ if_pos rfl
  have sound := (inv.queues id).store isEntry above near (isStored ▸ new)
  refine inv.of_thread thread id sound ⟨fun _ _ => rfl, fun other => ?_, rfl, rfl, rfl⟩
    (fun other isOther held theirs => ?_)
    ?_ ?_ (fun queue held theirs => ?_) fun _ bound => .inl bound
  · by_cases same : other = place
    · subst same
      simp only [GinProxyQueue.store, update_self]
      exact subset_insert _ _
    · simp only [GinProxyQueue.store, update_of_ne same]
      exact Finset.Subset.refl _
  · have other_place : held ≠ place := fun same => isOther (inv.distinct id place other thread (same ▸ theirs) mine)
    exact update_of_ne other_place _ _
  · split
    · trivial
    next more =>
      refine ⟨call, ?_, rfl, ?_, more, ?_⟩
      · rw [update_self]
        exact isEntry
      · rw [update_self]
        exact (update_self _ _ _).trans (isStored ▸ rfl)
      · rw [update_self]
        exact near
  · intro queue held now other isOther theirs
    split at now
    · cases now
    · exact isOther (inv.distinct queue held other thread theirs (isStoring ▸ now))
  · obtain ⟨rfl, rfl⟩ := of_ite_some (isStoring ▸ theirs)
    split
    next all =>
      exact .inr ⟨rfl, (update_self _ _ _).trans (isStored ▸ all)⟩
    · exact .inl (if_pos rfl)

theorem Inv.step (enough : config.nThreads + config.queueSize ≤ 2 ^ 32)
    (taken : state.step event = some next) : Inv next := by
  cases event with
  | claim thread id call memory =>
    cases isIdle : state.producers thread with
    | idle =>
      simp only [GinProxyState.step, isIdle] at taken
      obtain ⟨allowed, rfl⟩ := of_ite_some taken
      refine inv.claim isIdle id call memory fun counter isCounter => ?_
      rw [mem_def.mp isCounter] at allowed
      simpa using allowed
    | waiting | storing => simp [GinProxyState.step, isIdle] at taken
  | credit thread =>
    cases isWaiting : state.producers thread with
    | waiting =>
      simp only [GinProxyState.step, isWaiting] at taken
      obtain ⟨credits, is⟩ := ite_none_left_eq_some.mp taken
      cases is
      exact inv.credit enough isWaiting credits
    | idle | storing => simp [GinProxyState.step, isWaiting] at taken
  | store thread word =>
    cases isStoring : state.producers thread with
    | idle | waiting => simp [GinProxyState.step, isStoring] at taken
    | storing =>
      simp only [GinProxyState.step, isStoring] at taken
      obtain ⟨new, is⟩ := ite_none_left_eq_some.mp taken
      cases is
      exact inv.store isStoring new
  | host answer =>
    cases taken
    exact inv.host answer

end

theorem inv_of_reachable (enough : config.nThreads + config.queueSize ≤ 2 ^ 32) (reachable : state.Reachable) :
    Inv state := by
  obtain ⟨events, run⟩ := reachable
  exact foldlM_invariant run inv_init fun inv taken => inv.step enough taken

end

/-! ### Runs -/

section
variable {state : GinProxyState config}

/-- A poll of a queue whose first descriptor is done consumes it iff there is no wrap
between the consumed and the seen index. -/
theorem Inv.advances_iff (inv : Inv state) {id : config.QueueId}
    (here : state.pc = .completions id (state.queues id).cisShadow)
    (some : (state.queues id).log.consumed < (state.queues id).log.seen)
    (done : (state.queues id).log.consumed ∈ (state.queues id).log.completed ∨ answer = true) :
    ((state.host answer).queues id).log.consumed = (state.queues id).log.consumed + 1 ↔
      (state.queues id).log.consumed % 2 ^ 32 < (state.queues id).log.seen % 2 ^ 32 := by
  have sound := inv.queues id
  have shadow := sound.shadow
  rw [← sound.si, ← shadow]
  constructor
  · intro advanced
    by_contra wrapped
    rw [host_completions_end here wrapped] at advanced
    exact ne_of_lt (Nat.lt_succ_self _) advanced
  · intro more
    rw [host_completions here more answer]
    simp only [update_self, shadow]
    obtain ⟨-, -, testConsumed, testSeen⟩ :=
      test_log config (state.queues id) ((state.queues id).log.consumed % 2 ^ 32) answer
    have tested := sound.test le_rfl some answer
    have member : (state.queues id).log.consumed ∈
        ((state.queues id).test config ((state.queues id).log.consumed % 2 ^ 32) answer).log.completed := by
      rcases test_cases sound le_rfl some answer with ⟨-, -, grown, -⟩ | ⟨before, same, -⟩
      · rw [grown]
        exact mem_insert_self _ _
      · rw [same]
        rcases done with already | answered
        · exact already
        · exact before.resolve_right (by simp [answered])
    rcases consume_cases tested testConsumed.le (testSeen ▸ some) with ⟨-, -, next⟩ | ⟨front, -⟩
    · exact next
    · exact absurd member (front testConsumed.symm)

/-- The counters, if none is above 16 bits. -/
theorem counters_eq (inv : Inv state)
    (small : ∀ id, ∀ entry ∈ (state.queues id).log.posted, ∀ counter ∈ entry.1.counter, counter.toNat < 2 ^ 16)
    (context : Fin config.nContexts) (bound : counter < config.nCountersPerContext) :
    tally state.queues (context * config.nCountersPerContext + counter) =
      ∑ rank, ((state.queues (context, rank)).log.completed.filter fun p =>
        (state.queues (context, rank)).log.askedAt p = some counter).card := by
  -- a descriptor counts for the counter it asked for
  have counts : ∀ id p, countsFor id (state.queues id).log (context * config.nCountersPerContext + counter) p = true ↔
      id.1 = context ∧ (state.queues id).log.askedAt p = some counter := by
    intro id p
    rw [countsFor, GinProxyLog.counterAt, GinProxyLog.askedAt, decide_eq_true_eq]
    cases isEntry : (state.queues id).log.posted[p]? with
    | none => simp
    | some entry =>
      have member := mem_of_getElem? isEntry
      cases asked : entry.1.counter with
      | none => simp [asked]
      | some own =>
        have allowed := (inv.queues id).allowed entry member own asked
        have fits := Nat.mod_eq_of_lt (small id entry member own asked)
        simp only [bind_some, asked, map_some, some.injEq, fits, digits_inj allowed bound]
        exact and_congr_left fun _ => Fin.ext_iff.symm
  rw [tally, Fintype.sum_prod_type, sum_eq_single_of_mem context (mem_univ _)]
  · refine sum_congr rfl fun rank _ => congrArg card (filter_congr fun p _ => ?_)
    rw [counts]
    exact and_iff_right rfl
  · intro other _ isOther
    refine sum_eq_zero fun rank _ => card_eq_zero.mpr (filter_eq_empty_iff.mpr fun p _ => ?_)
    rw [counts]
    exact fun both => isOther both.1

theorem Inv.ordered (inv : Inv state) : state.Ordered := by
  refine ⟨fun id p request sent => ?_, fun id p here unavailable nobody => ?_,
    fun id p entry isEntry sent incomplete => ?_, fun thread id place gfdIdx gfd stored isStoring => ?_,
    fun id => ⟨(inv.queues id).ci, (inv.queues id).consumed_completed⟩⟩
  · have bound : p < (state.queues id).log.posted.length := by
      have := (List.getElem?_eq_some_iff.mp sent).1
      have := (inv.queues id).submitted
      have := (inv.queues id).seen_le
      omega
    obtain ⟨aggregate, isRequest⟩ := (inv.queues id).requests p request _ sent (getElem?_eq_getElem bound)
    exact ⟨_, aggregate, getElem?_eq_getElem bound, isRequest⟩
  · have sound := inv.sound_at here id
    have all : (state.queues id).log.seen = (state.queues id).log.posted.length := by
      refine sound.seen_le.antisymm (Nat.le_of_not_lt fun more => ?_)
      have stored := inv.free id _ more fun thread => nobody thread _
      have isSet := (flag_iff sound 0).mpr (stored ▸ mem_univ 0)
      exact of_decide_eq_false unavailable isSet
    exact sound.submitted.trans all
  · have above : (state.queues id).log.consumed ≤ p := by
      by_contra passed
      exact incomplete ((inv.queues id).consumed_completed p (by omega))
    exact (inv.queues id).inlines p entry above sent isEntry
  · obtain ⟨call, isEntry, isIdx, -, -, near⟩ : Holds state.queues (.storing id place gfdIdx gfd stored) :=
      isStoring ▸ inv.producers thread
    refine ⟨isIdx, fun earlier before same => ?_⟩
    have passed : earlier < (state.queues id).log.consumed := by
      by_contra inWindow
      exact ne_of_lt before (eq_of_mod_eq (not_lt.mp inWindow) (before.trans near) (by omega) near same)
    exact ⟨passed.trans_le (inv.queues id).consumed_le, (inv.queues id).consumed_completed earlier passed⟩

/-- In every run whose threads and queue fit in 32-bit indices, the requests are submitted in
order, slots are used again behind their completion, and the published index is right. As long
as the counters fit in 16 bits and no queue has seen 2^32 descriptors, so are the counters and
the progress. -/
theorem executed_once (enough : config.nThreads + config.queueSize ≤ 2 ^ 32) (reachable : state.Reachable) :
    state.Ordered ∧
      ((∀ id, ∀ entry ∈ (state.queues id).log.posted, ∀ counter ∈ entry.1.counter, counter.toNat < 2 ^ 16) →
        (∀ id, (state.queues id).log.seen < 2 ^ 32) → state.Correct) := by
  have inv := inv_of_reachable enough reachable
  refine ⟨inv.ordered, fun small unwrapped => { inv.ordered with
    leading := fun id i here exit => ?_
    counted := fun context counter bound => ?_
    advances := fun id answer here some done => ?_ }⟩
  · obtain ⟨a, rfl, lower, upper, front⟩ : PcHolds state.queues (.completions id i) := here ▸ inv.pc
    have noWrap := unwrapped id
    rw [(inv.queues id).si] at exit
    rcases front with isFront | ⟨open_, -⟩
    · intro member
      have := (inv.queues id).completed_lt _ member
      omega
    · exact open_
  · rw [inv.counters, counters_eq inv small context bound]
  · have noWrap := unwrapped id
    have advanced := (inv.advances_iff here some done).mpr (by omega)
    rw [((inv.host answer).queues id).ci, advanced]

end

/-! ### A put with a counter -/

section
variable (nCounters : Nat)

/-- One context with one rank, one thread and a queue of one descriptor. -/
def onePeer : GinProxyConfig where
  nContexts := 1
  nRanks := 1
  nThreads := 1
  contexts_pos := Nat.one_pos
  ranks_pos := Nat.one_pos
  logQueueSize := 0
  logQueueSize_lt := by decide
  nCountersPerContext := nCounters
  nSignalsPerContext := 0
  pollBatch := 1
  signalsGinHandle := 0
  inlinesMhandle _ := 0

def onlyThread : Fin (onePeer nCounters).nThreads := (0 : Fin 1)

def onlyQueue : (onePeer nCounters).QueueId := ((0 : Fin 1), (0 : Fin 1))

theorem eq_onlyQueue (id : (onePeer nCounters).QueueId) : id = onlyQueue nCounters :=
  have single : Subsingleton (Fin 1 × Fin 1) := inferInstance
  single.elim id (onlyQueue nCounters)

/-- A put of 8 bytes is posted, submitted and completed. -/
def putEvents (counter : BitVec 23) : List (GinProxyEvent (onePeer nCounters)) :=
  [.claim (onlyThread nCounters) (onlyQueue nCounters) (.put (.window 0 0 8) 0 0 none (some counter) false) fun _ => 0,
    .credit (onlyThread nCounters)] ++
    (finRange 16).map (.store (onlyThread nCounters)) ++ replicate 38 (.host true)

variable {nCounters}

/-- A run, with what is checked of its last state. -/
theorem exists_of_run (events : List (GinProxyEvent (onePeer nCounters)))
    (check : GinProxyState (onePeer nCounters) → Bool)
    (run : (events.foldlM GinProxyState.step (GinProxyState.init _)).any check = true) :
    ∃ state, state.Reachable ∧ check state = true := by
  obtain ⟨state, isRun, checked⟩ := (any_eq_true _ _).mp run
  exact ⟨state, ⟨_, isRun⟩, checked⟩

end

/-- The second put uses the slot of the first. -/
theorem puts_executed : ∃ state : GinProxyState (onePeer 1), state.Reachable ∧ state.Correct ∧
    state.counters 0 = 2 ∧ (state.queues (onlyQueue 1)).log.consumed = 2 := by
  obtain ⟨state, reachable, checked⟩ := exists_of_run (putEvents 1 0 ++ putEvents 1 0)
    (fun state => state.counters 0 = 2 ∧ (state.queues (onlyQueue 1)).log.consumed = 2 ∧
      (state.queues (onlyQueue 1)).log.seen = 2 ∧
      ∀ entry ∈ (state.queues (onlyQueue 1)).log.posted, entry.1.counter = some 0) (by decide +kernel)
  obtain ⟨counted, consumed, seen, counters⟩ := of_decide_eq_true checked
  refine ⟨state, reachable, (executed_once (by decide) reachable).2 (fun id entry member counter isCounter => ?_)
    (fun id => ?_), counted, consumed⟩
  · rw [eq_onlyQueue 1 id] at member
    obtain rfl := some.inj ((counters entry member).symm.trans isCounter)
    decide
  · rw [eq_onlyQueue 1 id, seen]
    decide

/-- A counter above 16 bits is counted as another one. -/
theorem counter_cut_off : ∃ state : GinProxyState (onePeer 65537), state.Reachable ∧ ¬ state.Correct ∧
    state.counters 0 = 1 ∧ state.counters 65536 = 0 := by
  obtain ⟨state, reachable, checked⟩ := exists_of_run (putEvents 65537 65536)
    (fun state => state.counters 0 = 1 ∧ state.counters 65536 = 0 ∧
      ((state.queues (onlyQueue 65537)).log.completed.filter fun p =>
        (state.queues (onlyQueue 65537)).log.askedAt p = some 65536).card = 1) (by decide +kernel)
  obtain ⟨other, own, completed⟩ := of_decide_eq_true checked
  refine ⟨state, reachable, fun correct => ?_, other, own⟩
  have counted := correct.counted (0 : Fin 1) 65536 (by decide)
  have sum : (∑ rank : Fin 1, ((state.queues ((0 : Fin 1), rank)).log.completed.filter fun p =>
      (state.queues ((0 : Fin 1), rank)).log.askedAt p = some 65536).card) = 1 :=
    (Fin.sum_univ_one _).trans completed
  have none : state.counters ((0 : Fin 1) * (onePeer 65537).nCountersPerContext + 65536) = 0 := own
  rw [none] at counted
  exact absurd (counted.trans (congrArg (· % 2 ^ 64) sum)) (by decide)

end NcclCore.GinProxyProofs
