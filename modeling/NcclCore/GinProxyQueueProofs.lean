import NcclCore.GinProxyGfdProofs

/-! One queue of the proxy. The memory of the slots is described by the indices from the
consumed one on: a word is there if it is stored and not yet taken by the host. -/
namespace NcclCore
variable {config : GinProxyConfig}

/-- The descriptor with an index. -/
def GinProxyLog.gfdAt (log : GinProxyLog) (p : Nat) : GinProxyGfd := ((log.posted[p]?).map (·.2)).getD fun _ => 0

/-- The counter in the host's state that the descriptor with an index raises. -/
def GinProxyLog.counterAt (log : GinProxyLog) (p : Nat) : Option Nat :=
  (log.posted[p]?).bind fun entry => entry.1.counter.map fun counter => counter.toNat % 2 ^ 16

namespace GinProxyQueueProofs
open GinProxyGfdProofs Function List

/-! ### Indices -/

/-- Two indices of a window as long as the queue are in different slots. -/
theorem eq_of_mod_eq {size start p q : Nat} (from_p : start ≤ p) (to_p : p < start + size) (from_q : start ≤ q)
    (to_q : q < start + size) (same : p % size = q % size) : p = q := by
  have behind : p - q = 0 :=
    Nat.eq_zero_of_dvd_of_lt (Nat.dvd_of_mod_eq_zero (Nat.sub_mod_eq_zero_of_mod_eq same)) (by omega)
  have before : q - p = 0 :=
    Nat.eq_zero_of_dvd_of_lt (Nat.dvd_of_mod_eq_zero (Nat.sub_mod_eq_zero_of_mod_eq same.symm)) (by omega)
  omega

section
variable (config : GinProxyConfig)

theorem queueSize_pos : 0 < config.queueSize := Nat.two_pow_pos _

theorem queueSize_lt : config.queueSize < 2 ^ 32 :=
  Nat.pow_lt_pow_right (by decide) config.logQueueSize_lt

theorem slotOf_mod (p : Nat) : config.slotOf (p % 2 ^ 32) = p % config.queueSize := by
  have divides := Nat.pow_dvd_pow 2 config.logQueueSize_lt.le
  rw [GinProxyConfig.slotOf, GinProxyConfig.queueSize, Nat.and_two_pow_sub_one_eq_mod]
  exact Nat.mod_mod_of_dvd p divides

end

/-! ### The invariant -/

/-- Whether a word is in its slot. The host has taken the descriptors before `seen` and the
first words of the next one. -/
def Present (log : GinProxyLog) (cleared p : Nat) (k : Fin 16) : Prop :=
  k ∈ log.stored p ∧ (log.seen < p ∨ (p = log.seen ∧ cleared ≤ k))

/-- What holds of a queue while `cleared` words of the next descriptor are reset, and
while the last descriptor that was seen is not yet submitted. -/
structure Sound (id : config.QueueId) (cleared : Nat) (processing : Bool) (queue : GinProxyQueue) : Prop where
  pi : queue.pi = queue.log.posted.length % 2 ^ 32
  ci : queue.ci = queue.log.consumed % 2 ^ 32
  shadow : queue.cisShadow = queue.log.consumed % 2 ^ 32
  si : queue.si = queue.log.seen % 2 ^ 32
  consumed_le : queue.log.consumed ≤ queue.log.seen
  seen_le : queue.log.seen ≤ queue.log.posted.length
  window : queue.log.seen ≤ queue.log.consumed + config.queueSize
  stored_lt : ∀ p k, k ∈ queue.log.stored p → p < queue.log.posted.length ∧ p < queue.log.consumed + config.queueSize
  stored_seen : ∀ p, p < queue.log.seen → queue.log.stored p = Finset.univ
  stored_cleared : 0 < cleared → queue.log.stored queue.log.seen = Finset.univ
  built : ∀ (p : Nat) entry, queue.log.posted[p]? = some entry → ∃ memory, entry.2 = buildGfd memory entry.1.args
  allowed : ∀ entry ∈ queue.log.posted, ∀ counter ∈ entry.1.counter, counter.toNat < config.nCountersPerContext
  present : ∀ p k, Present queue.log cleared p k → queue.gfds (p % config.queueSize) k = queue.log.gfdAt p k
  absent : ∀ p, queue.log.consumed ≤ p → p < queue.log.consumed + config.queueSize → ∀ k,
    ¬ Present queue.log cleared p k → queue.gfds (p % config.queueSize) k = 0
  states : ∀ p, queue.log.consumed ≤ p → p < queue.log.seen →
    (if (queue.states (p % config.queueSize)).op.has .withCounter then
      some (queue.states (p % config.queueSize)).counterId.toNat else none) = queue.log.counterAt p ∧
    ((queue.states (p % config.queueSize)).done ↔ p ∈ queue.log.completed)
  completed_lt : ∀ p ∈ queue.log.completed, p < queue.log.seen
  consumed_completed : ∀ p, p < queue.log.consumed → p ∈ queue.log.completed
  submitted : queue.log.submitted.length + (if processing then 1 else 0) = queue.log.seen
  requests : ∀ (p : Nat) request entry, queue.log.submitted[p]? = some request → queue.log.posted[p]? = some entry →
    ∃ aggregate, request = entry.1.request config id (p % config.queueSize) aggregate
  inlines : ∀ (p : Nat) entry, queue.log.consumed ≤ p → p < queue.log.submitted.length →
    queue.log.posted[p]? = some entry → ∀ bits ∈ entry.1.inlined, queue.inlines (p % config.queueSize) = bits

variable {id : config.QueueId}

theorem sound_init : Sound id 0 false GinProxyQueue.init where
  pi := rfl
  ci := rfl
  shadow := rfl
  si := rfl
  consumed_le := le_rfl
  seen_le := le_rfl
  window := Nat.zero_le _
  stored_lt _ _ member := absurd member (Finset.notMem_empty _)
  stored_seen _ before := absurd before (Nat.not_lt_zero _)
  stored_cleared pos := absurd pos (Nat.not_lt_zero _)
  built _ _ here := by cases here
  allowed _ member := by cases member
  present _ _ present := absurd present.1 (Finset.notMem_empty _)
  absent _ _ _ _ _ := rfl
  states _ _ before := absurd before (Nat.not_lt_zero _)
  completed_lt _ member := absurd member (Finset.notMem_empty _)
  consumed_completed _ before := absurd before (Nat.not_lt_zero _)
  submitted := rfl
  requests _ _ _ here := by cases here
  inlines _ _ _ before := absurd before (Nat.not_lt_zero _)

namespace Sound

/-- A descriptor that was claimed is at its place. -/
theorem gfdAt_append (log : GinProxyLog) (entry : GinProxyCall × GinProxyGfd) (bound : p < log.posted.length) :
    { log with posted := log.posted ++ [entry] }.gfdAt p = log.gfdAt p := by
  rw [GinProxyLog.gfdAt, GinProxyLog.gfdAt, getElem?_append_left bound]

theorem counterAt_append (log : GinProxyLog) (entry : GinProxyCall × GinProxyGfd) (bound : p < log.posted.length) :
    { log with posted := log.posted ++ [entry] }.counterAt p = log.counterAt p := by
  rw [GinProxyLog.counterAt, GinProxyLog.counterAt, getElem?_append_left bound]

theorem claim (sound : Sound id cleared processing queue) (call : GinProxyCall) (memory : GinProxyGfd)
    (allowed : ∀ counter ∈ call.counter, counter.toNat < config.nCountersPerContext) :
    Sound id cleared processing (queue.claim call (buildGfd memory call.args)) where
  __ := sound
  pi := by
    have before := sound.pi
    simp only [GinProxyQueue.claim, length_append, length_singleton, before]
    omega
  seen_le := by
    have before := sound.seen_le
    simp only [GinProxyQueue.claim, length_append]
    omega
  stored_lt p k member := by
    obtain ⟨bound, near⟩ := sound.stored_lt p k member
    refine ⟨?_, near⟩
    simp only [GinProxyQueue.claim, length_append]
    omega
  built p entry here := by
    rcases lt_or_ge p queue.log.posted.length with bound | past
    · exact sound.built p entry ((getElem?_append_left bound).symm.trans here)
    · have last := mem_of_getElem? ((getElem?_append_right past).symm.trans here)
      rw [mem_singleton.mp last]
      exact ⟨memory, rfl⟩
  allowed entry member := by
    rcases mem_append.mp member with before | last
    · exact sound.allowed entry before
    · rw [mem_singleton.mp last]
      exact allowed
  present p k present :=
    (sound.present p k present).trans (congrFun (gfdAt_append queue.log _ (sound.stored_lt p k present.1).1).symm k)
  states p lower upper := by
    have bound := upper.trans_le sound.seen_le
    obtain ⟨counter, done⟩ := sound.states p lower upper
    exact ⟨counter.trans (counterAt_append queue.log _ bound).symm, done⟩
  requests p request entry sent here := by
    have bound : p < queue.log.posted.length := by
      have := (List.getElem?_eq_some_iff.mp sent).1
      have := sound.submitted
      have := sound.seen_le
      simp only [GinProxyQueue.claim] at *
      omega
    exact sound.requests p request entry sent ((getElem?_append_left bound).symm.trans here)
  inlines p entry lower upper here := by
    have bound : p < queue.log.posted.length := by
      have := sound.submitted
      have := sound.seen_le
      simp only [GinProxyQueue.claim] at *
      omega
    exact sound.inlines p entry lower upper ((getElem?_append_left bound).symm.trans here)

/-- The memory after a word of a slot is written. -/
theorem update_word (gfds : Nat → GinProxyGfd) (idx : Nat) (word : Fin 16) (value : BitVec 64) (j : Nat) (k : Fin 16) :
    update gfds idx (update (gfds idx) word value) j k =
      if j = idx ∧ k = word then value else gfds j k := by
  by_cases slot : j = idx
  · subst slot
    rw [update_self, update_apply]
    simp
  · rw [update_of_ne slot, if_neg fun both => slot both.1]

section
variable (sound : Sound id cleared processing queue)
include sound

/-- The window holds what is present. -/
theorem window_of_present (present : Present queue.log cleared p k) :
    queue.log.consumed ≤ p ∧ p < queue.log.consumed + config.queueSize := by
  have := sound.consumed_le
  refine ⟨?_, (sound.stored_lt p k present.1).2⟩
  rcases present.2 with later | ⟨here, -⟩ <;> omega

/-- A store adds its word to what is present. -/
theorem present_store (new : word ∉ queue.log.stored place) (gfdIdx : Nat) (gfd : GinProxyGfd) (p : Nat) (k : Fin 16) :
    Present (queue.store place gfdIdx gfd word).log cleared p k ↔
      Present queue.log cleared p k ∨ (p = place ∧ k = word) := by
  have unseen : queue.log.seen < place ∨ (place = queue.log.seen ∧ cleared = 0) := by
    by_contra taken
    have all : queue.log.stored place = Finset.univ := by
      rcases Nat.lt_or_ge place queue.log.seen with before | behind
      · exact sound.stored_seen place before
      · have here : place = queue.log.seen := by omega
        rw [here]
        exact sound.stored_cleared (by omega)
    exact new (all ▸ Finset.mem_univ word)
  by_cases same : p = place
  · subst same
    simp only [Present, GinProxyQueue.store, update_self, Finset.mem_insert]
    constructor
    · rintro ⟨rfl | member, open_⟩
      · exact .inr ⟨trivial, rfl⟩
      · exact .inl ⟨member, open_⟩
    · rintro (⟨member, open_⟩ | ⟨-, rfl⟩)
      · exact ⟨.inr member, open_⟩
      · exact ⟨.inl rfl, unseen.imp_right fun ⟨here, fresh⟩ => ⟨here, fresh ▸ Nat.zero_le _⟩⟩
  · simp [Present, GinProxyQueue.store, same]

theorem store (isPlace : queue.log.posted[place]? = some entry) (above : queue.log.consumed ≤ place)
    (near : place < queue.log.consumed + config.queueSize) (new : word ∉ queue.log.stored place) :
    Sound id cleared processing (queue.store place (place % config.queueSize) entry.2 word) where
  __ := sound
  stored_lt p k member := by
    by_cases same : p = place
    · subst same
      exact ⟨(List.getElem?_eq_some_iff.mp isPlace).1, near⟩
    · refine sound.stored_lt p k ?_
      simpa [GinProxyQueue.store, update_of_ne same] using member
  stored_seen p before := by
    have all := sound.stored_seen p before
    by_cases same : p = place
    · subst same
      rw [all] at new
      exact absurd (Finset.mem_univ _) new
    · simpa [GinProxyQueue.store, update_of_ne same] using all
  stored_cleared some := by
    have all := sound.stored_cleared some
    by_cases same : queue.log.seen = place
    · subst same
      rw [all] at new
      exact absurd (Finset.mem_univ _) new
    · simpa [GinProxyQueue.store, update_of_ne same] using all
  present p k present := by
    change update queue.gfds _ _ _ _ = queue.log.gfdAt p k
    rw [update_word]
    rcases (sound.present_store new _ _ p k).mp present with before | ⟨rfl, rfl⟩
    · rw [if_neg, sound.present p k before]
      rintro ⟨slot, rfl⟩
      obtain ⟨lower, upper⟩ := sound.window_of_present before
      exact new (eq_of_mod_eq lower upper above near slot ▸ before.1)
    · rw [if_pos ⟨rfl, rfl⟩, GinProxyLog.gfdAt, isPlace]
      rfl
  absent p lower upper k absent := by
    rw [sound.present_store new] at absent
    obtain ⟨before, elsewhere⟩ := not_or.mp absent
    change update queue.gfds _ _ _ _ = 0
    rw [update_word, if_neg, sound.absent p lower upper k before]
    rintro ⟨slot, rfl⟩
    exact elsewhere ⟨eq_of_mod_eq lower upper above near slot, rfl⟩

/-- A descriptor that is all stored is posted and in the window. -/
theorem next_bounds (all : queue.log.stored queue.log.seen = Finset.univ) :
    queue.log.seen < queue.log.posted.length ∧ queue.log.seen < queue.log.consumed + config.queueSize :=
  sound.stored_lt _ 0 (all ▸ Finset.mem_univ _)

theorem clear (all : queue.log.stored queue.log.seen = Finset.univ)
    (more : cleared < 16) : Sound id (cleared + 1) processing (queue.clear config ⟨cleared, more⟩) where
  __ := sound
  stored_cleared _ := all
  present p k present := by
    have before : Present queue.log cleared p k :=
      ⟨present.1, present.2.imp_right fun ⟨here, behind⟩ => ⟨here, Nat.le_of_succ_le behind⟩⟩
    change update queue.gfds _ _ _ _ = queue.log.gfdAt p k
    rw [update_word, if_neg, sound.present p k before]
    rintro ⟨slot, rfl⟩
    obtain ⟨lower, upper⟩ := sound.window_of_present before
    rw [sound.si, slotOf_mod] at slot
    have here := eq_of_mod_eq lower upper sound.consumed_le (sound.next_bounds all).2 slot
    rcases present.2 with later | ⟨-, behind⟩
    · exact absurd here later.ne'
    · exact Nat.not_succ_le_self _ behind
  absent p lower upper k absent := by
    change update queue.gfds _ _ _ _ = 0
    rw [update_word]
    split
    · rfl
    next other =>
      refine sound.absent p lower upper k fun before => ?_
      refine absent ⟨before.1, before.2.imp_right fun ⟨here, behind⟩ => ⟨here, ?_⟩⟩
      refine Nat.lt_of_le_of_ne behind fun same => other ⟨?_, Fin.ext same.symm⟩
      rw [sound.si, slotOf_mod, here]

end

theorem see (sound : Sound id 16 false queue) (all : queue.log.stored queue.log.seen = Finset.univ) :
    Sound id 0 true (queue.see config (queue.log.gfdAt queue.log.seen)) where
  __ := sound
  si := by
    have before := sound.si
    simp only [GinProxyQueue.see, before]
    omega
  consumed_le := Nat.le_succ_of_le sound.consumed_le
  seen_le := (sound.next_bounds all).1
  window := (sound.next_bounds all).2
  stored_seen p before := by
    rcases Nat.lt_succ_iff_lt_or_eq.mp before with earlier | here
    · exact sound.stored_seen p earlier
    · exact here ▸ all
  stored_cleared pos := absurd pos (Nat.not_lt_zero _)
  present p k present := by
    refine sound.present p k ⟨present.1, .inl ?_⟩
    rcases present.2 with later | ⟨here, -⟩
    · exact Nat.lt_of_succ_lt later
    · rw [here]
      exact Nat.lt_succ_self _
  absent p lower upper k absent := by
    refine sound.absent p lower upper k fun before => absent ⟨before.1, ?_⟩
    rcases before.2 with later | ⟨-, behind⟩
    · rcases Nat.lt_or_ge (queue.log.seen + 1) p with past | next
      · exact .inl past
      · exact .inr ⟨by change p = queue.log.seen + 1; omega, Nat.zero_le _⟩
    · omega
  states p lower upper := by
    have bounds := sound.next_bounds all
    have slot : config.slotOf queue.si = queue.log.seen % config.queueSize := by rw [sound.si, slotOf_mod]
    simp only [GinProxyQueue.see, slot]
    rcases Nat.lt_succ_iff_lt_or_eq.mp upper with earlier | here
    · have other : p % config.queueSize ≠ queue.log.seen % config.queueSize := fun same =>
        Nat.ne_of_lt earlier (eq_of_mod_eq lower (earlier.trans bounds.2) sound.consumed_le bounds.2 same)
      rw [update_of_ne other]
      exact sound.states p lower earlier
    · obtain ⟨entry, isEntry⟩ : ∃ entry, queue.log.posted[queue.log.seen]? = some entry :=
        ⟨_, getElem?_eq_getElem bounds.1⟩
      obtain ⟨memory, built⟩ := sound.built _ _ isEntry
      have isGfd : queue.log.gfdAt queue.log.seen = buildGfd memory entry.1.args := by
        rw [GinProxyLog.gfdAt, isEntry, ← built]
        rfl
      rw [here, update_self, isGfd, extractOp_buildGfd, counter_buildGfd]
      refine ⟨?_, ?_⟩
      · simp [GinProxyLog.counterAt, isEntry]
      · simp only [Bool.false_eq_true, false_iff]
        exact fun member => Nat.lt_irrefl _ (sound.completed_lt _ member)
  completed_lt p member := Nat.lt_succ_of_lt (sound.completed_lt p member)
  submitted := congrArg (· + 1) sound.submitted

section
variable (sound : Sound id cleared processing queue)
include sound
variable (lower : queue.log.consumed ≤ a)
include lower

/-- The index without the wrap of a descriptor that is seen and not consumed. -/
theorem place_eq (upper : a ≤ queue.log.seen) :
    queue.log.consumed + (a % 2 ^ 32 + 2 ^ 32 - queue.cisShadow) % 2 ^ 32 = a := by
  have near := sound.window
  have small := queueSize_lt config
  rw [sound.shadow]
  omega

theorem eq_shadow_iff (upper : a ≤ queue.log.seen) :
    a % 2 ^ 32 = queue.cisShadow ↔ a = queue.log.consumed := by
  have near := sound.window
  have small := queueSize_lt config
  rw [sound.shadow]
  omega

/-- A descriptor that is found done. -/
theorem complete (upper : a < queue.log.seen) :
    Sound id cleared processing
      { queue with
        states := update queue.states (a % config.queueSize)
          { queue.states (a % config.queueSize) with done := true }
        log := { queue.log with completed := insert a queue.log.completed } } where
  __ := sound
  states p from_p to_p := by
    obtain ⟨counter, done⟩ := sound.states p from_p to_p
    by_cases same : p = a
    · subst same
      simp only [update_self]
      exact ⟨counter, iff_of_true trivial (Finset.mem_insert_self _ _)⟩
    · have other : p % config.queueSize ≠ a % config.queueSize := fun slot =>
        same (eq_of_mod_eq from_p (to_p.trans_le sound.window) lower (upper.trans_le sound.window) slot)
      simp only [update_of_ne other, Finset.mem_insert, same, false_or]
      exact ⟨counter, done⟩
  completed_lt p member := by
    rcases Finset.mem_insert.mp member with rfl | before
    · exact upper
    · exact sound.completed_lt p before
  consumed_completed p before := Finset.mem_insert_of_mem (sound.consumed_completed p before)

theorem test (upper : a < queue.log.seen) (answer : Bool) :
    Sound id cleared processing (queue.test config (a % 2 ^ 32) answer) := by
  rw [GinProxyQueue.test]
  simp only [slotOf_mod, sound.place_eq lower upper.le]
  split
  · exact sound.complete lower upper
  · exact sound

/-- The first descriptor that is not consumed is, if it is done. -/
theorem consume (upper : a < queue.log.seen) :
    Sound id cleared processing (queue.consume config (a % 2 ^ 32)) := by
  rw [GinProxyQueue.consume]
  split
  next both =>
    obtain ⟨done, front⟩ := both
    obtain rfl := (sound.eq_shadow_iff lower upper.le).mp front
    rw [slotOf_mod] at done
    have isCompleted := (sound.states _ lower upper).2.mp done
    exact
    { sound with
      ci := by
        have before := sound.shadow
        simp only [before]
        omega
      shadow := by
        have before := sound.shadow
        simp only [before]
        omega
      consumed_le := upper
      window := by
        have before := sound.window
        simp only
        omega
      stored_lt := fun p k member => by
        obtain ⟨bound, near⟩ := sound.stored_lt p k member
        exact ⟨bound, by simp only; omega⟩
      absent := fun p from_p to_p k absent => by
        rcases lt_or_ge p (queue.log.consumed + config.queueSize) with before | entering
        · exact sound.absent p (Nat.le_of_succ_le from_p) before k absent
        · -- the slot of the consumed descriptor, which was reset when it was seen
          have here : p = queue.log.consumed + config.queueSize := by
            simp only at to_p
            omega
          rw [here, Nat.add_mod_right]
          refine sound.absent _ le_rfl (Nat.lt_add_of_pos_right (queueSize_pos config)) k fun present => ?_
          rcases present.2 with later | ⟨next, -⟩ <;> omega
      states := fun p from_p => sound.states p (Nat.le_of_succ_le from_p)
      consumed_completed := fun p before => by
        rcases Nat.lt_succ_iff_lt_or_eq.mp before with earlier | rfl
        · exact sound.consumed_completed p earlier
        · exact isCompleted
      inlines := fun p entry from_p => sound.inlines p entry (Nat.le_of_succ_le from_p) }
  · exact sound

end

/-- The entry of the descriptor that was seen last. -/
theorem last_entry (sound : Sound id cleared true queue) :
    ∃ entry memory, queue.log.seen = queue.log.submitted.length + 1 ∧
      queue.log.posted[queue.log.submitted.length]? = some entry ∧
      queue.log.gfdAt (queue.log.seen - 1) = buildGfd memory entry.1.args := by
  have last : queue.log.seen = queue.log.submitted.length + 1 := sound.submitted.symm
  have bound : queue.log.submitted.length < queue.log.posted.length := by
    have := sound.seen_le
    omega
  have isEntry := getElem?_eq_getElem bound
  obtain ⟨memory, built⟩ := sound.built _ _ isEntry
  refine ⟨_, memory, last, isEntry, ?_⟩
  rw [GinProxyLog.gfdAt, last, Nat.add_sub_cancel, isEntry, ← built]
  rfl

/-- The request for the descriptor that was seen last, with its inline value. -/
theorem submit (sound : Sound id cleared true queue)
    (isEntry : queue.log.posted[queue.log.submitted.length]? = some entry) (aggregate : Bool)
    (inlines : Nat → BitVec 64) (isInlines : inlines = (match entry.1.inlined with
      | some bits => update queue.inlines (queue.log.submitted.length % config.queueSize) bits
      | none => queue.inlines)) :
    Sound id cleared false
      { queue with
        inlines
        log := { queue.log with submitted := queue.log.submitted ++
          [entry.1.request config id (queue.log.submitted.length % config.queueSize) aggregate] } } where
  __ := sound
  submitted := by
    rw [length_append]
    exact sound.submitted
  requests p request other sent here := by
    rcases Nat.lt_or_ge p queue.log.submitted.length with before | last
    · exact sound.requests p request other ((getElem?_append_left before).symm.trans sent) here
    · have isLast : p = queue.log.submitted.length := by
        have := (List.getElem?_eq_some_iff.mp sent).1
        rw [length_append, length_singleton] at this
        omega
      subst isLast
      obtain rfl := Option.some.inj (isEntry.symm.trans here)
      rw [getElem?_append_right le_rfl, Nat.sub_self] at sent
      exact ⟨aggregate, (Option.some.inj sent).symm⟩
  inlines p other from_p to_p here bits isBits := by
    have length : queue.log.submitted.length + 1 = queue.log.seen := sound.submitted
    have near := sound.window
    rw [length_append, length_singleton] at to_p
    simp only at here from_p ⊢
    by_cases isLast : p = queue.log.submitted.length
    · subst isLast
      obtain rfl := Option.some.inj (isEntry.symm.trans here)
      rw [isInlines, Option.mem_def.mp isBits]
      exact update_self _ _ _
    · have before : p < queue.log.submitted.length := by omega
      have other_slot : p % config.queueSize ≠ queue.log.submitted.length % config.queueSize := fun same =>
        isLast (eq_of_mod_eq from_p (by omega) (by omega) (by omega) same)
      have kept : inlines (p % config.queueSize) = queue.inlines (p % config.queueSize) := by
        rw [isInlines]
        split
        · exact update_of_ne other_slot _ _
        · rfl
      rw [kept]
      exact sound.inlines p other from_p before here bits isBits

theorem process (sound : Sound id cleared true queue) (fresh : queue.log.seen - 1 ∉ queue.log.completed)
    (isLastInBatch answer : Bool) :
    Sound id cleared false (queue.process config id (queue.log.gfdAt (queue.log.seen - 1))
      ((queue.log.seen - 1) % config.queueSize) isLastInBatch answer) := by
  obtain ⟨entry, memory, last, isEntry, isGfd⟩ := sound.last_entry
  have place : queue.log.seen - 1 = queue.log.submitted.length := by omega
  rw [place] at isGfd fresh
  have lower : queue.log.consumed ≤ queue.log.submitted.length := by
    by_contra passed
    exact fresh (sound.consumed_completed _ (by omega))
  have inlines := inlined_buildGfd memory entry.1
  have submitted := sound.submit isEntry (queue.isGfdAvailable config && !isLastInBatch)
    (if (buildGfd memory entry.1.args).isInline then
      update queue.inlines (queue.log.submitted.length % config.queueSize)
        (buildGfd memory entry.1.args).inlineVal else queue.inlines) (by
      rw [← inlines]
      split <;> rfl)
  rw [GinProxyQueue.process]
  simp only [place, isGfd, request_buildGfd, Option.toList_some]
  split
  · exact submitted.complete lower (by simp only; omega)
  · exact submitted

end Sound
end NcclCore.GinProxyQueueProofs
