import Mathlib.Data.List.Nodup
import Mathlib.Data.List.Perm.Subperm
import NcclCore.ProxyOpsProofs

/-! What a rank posts when its chain is full. Two groups of operations fit the slots of a
rank, so a full chain holds operations of more than one group, and it is cut in front of
the last one. No rank has more operations under way than slots. -/
namespace NcclCore.ProxyOpsProofs
open Lib ProxySystem Function
open List hiding head tail
variable {α : Type} {localRanks rank : Nat} {system : ProxySystem α} {slots : SlotPlace → List Nat}

/-- The operations of a group follow each other, and there are no more than the size of the
pool provides for. -/
structure Grouped (opCount : α → Nat) (ops : List α) : Prop where
  contiguous : ∀ (i j k : Nat) first op last, i ≤ j → j ≤ k → ops[i]? = some first → ops[j]? = some op →
    ops[k]? = some last → opCount first = opCount last → opCount op = opCount last
  half : ∀ group, ops.countP (opCount · = group) ≤ maxOpsPerPeer / 2

theorem append_result {pool : OpsPool α} (done : ncclLocalOpAppend pool rank ops proxyOp = some result) :
    result.1.nextOps = pool.nextOps ∧ result.2.count = ops.count + 1 ∧
      result.2.full = decide (ops.count + 1 = maxOpsPerPeer) := by
  unfold ncclLocalOpAppend takeFreeOp at done
  split at done
  · cases done
    simp
  · split at done <;> cases done
    simp

/-- A rank that has to post has used all its slots. -/
theorem count_of_full (reachable : Reachable opCount localRanks batchSize system)
    (full : (system.ranks rank).full = true) : (system.ranks rank).count = maxOpsPerPeer := by
  induction reachable with
  | refl => cases full
  | @tail before after _ step ih =>
    -- a step changes the record of its own rank only
    have other {owner : Nat} {result : OpsPool α × PeerOps} (same : after.ranks = (before.withRank owner result).ranks)
        (here : result.2.full = true → result.2.count = maxOpsPerPeer) :
        (after.ranks rank).count = maxOpsPerPeer := by
      rw [same] at full ⊢
      by_cases isOwner : rank = owner
      · subst isOwner
        rw [ranks_withRank_self] at full ⊢
        exact here full
      · rw [ranks_withRank_of_ne isOwner] at full ⊢
        exact ih full
    cases step with
    | append proxyOp isRank ready done =>
      obtain ⟨-, count, isFull⟩ := append_result done
      exact other rfl fun full => count.trans (of_decide_eq_true (isFull.symm.trans full))
    | postFull => exact other rfl nofun
    | postError => exact other rfl nofun
    | start isRank ready =>
      refine other rfl fun full => ?_
      unfold ncclProxyStart at full
      split at full <;> exact absurd (ready.symm.trans full) (by decide)
    | _ => exact ih full

/-- The operations in the chain of a rank are the last ones it appended. -/
theorem Accounted.pending_ops (accounted : Accounted localRanks system slots) (rank : Nat) :
    ∃ earlier chained, system.submitted rank = earlier ++ chained ∧
      (slots (.pending rank)).map system.pool.op = chained.map some := by
  have logged := accounted.logged rank
  rw [inFlight, map_append, ← append_assoc] at logged
  obtain ⟨earlier, chained, isAll, -, isChained⟩ := map_eq_append_iff.mp logged
  exact ⟨earlier, chained, isAll, isChained.symm⟩

/-- A full chain is posted up to a border between two groups, behind what was posted before.
What stays is a chain with the right count, and no group is on both sides; the error is
never returned. -/
theorem partial_post_keeps_groups (opCount : α → Nat) (localRanks : Nat) (batchSize : Int) (system : ProxySystem α)
    (reachable : Reachable opCount localRanks batchSize system) (rank : Nat) (full : (system.ranks rank).full = true)
    (grouped : Grouped opCount (system.submitted rank)) :
    ∃ (result : OpsPool α × PeerOps) (sent kept : List Nat),
      postFullChain opCount system.pool (system.ranks rank) = some result ∧
      Linked system.pool.next (system.ranks rank).nextOps (sent ++ kept) none ∧ sent ≠ [] ∧ kept ≠ [] ∧
      (∀ slot ∈ sent, ∀ other ∈ kept, (system.pool.op slot).map opCount ≠ (system.pool.op other).map opCount) ∧
      Linked result.1.next result.2.nextOps kept none ∧ kept.getLast? = result.2.nextOpsEnd ∧
      result.2.count = kept.length ∧ ∃ posted, Linked system.pool.next system.pool.nextOps posted none ∧
        Linked result.1.next result.1.nextOps (posted ++ sent) none := by
  obtain ⟨slots, accounted⟩ := accounted_of_reachable reachable
  have counted := accounted.counted rank
  rw [count_of_full reachable full] at counted
  obtain ⟨earlier, chained, isAll, isChained⟩ := accounted.pending_ops rank
  obtain ⟨result, done⟩ : ∃ result, postFullChain opCount system.pool (system.ranks rank) = some result := by
    obtain ⟨before, final, pending⟩ := (eq_nil_or_concat' (slots (.pending rank))).resolve_left
      (ne_nil_of_length_pos (counted ▸ by decide))
    have found := accounted.found_cut opCount pending
    unfold postFullChain
    split
    next toSend isCut =>
      -- all operations of the chain would be in one group, which is too large for that
      rw [isCut] at found
      have alike : ∀ count ∈ chained.map (some ∘ opCount), count = (system.pool.op final).map opCount := by
        have counts := congrArg (map (Option.map opCount)) isChained
        rw [map_map, map_map, pending] at counts
        intro count member
        rw [show chained.map (some ∘ opCount) = _ from counts.symm] at member
        obtain ⟨slot, inside, rfl⟩ := mem_map.mp member
        rcases mem_append.mp inside with early | last
        · exact found slot early
        · rw [mem_singleton.mp last, comp_apply]
      have whole : chained.length = maxOpsPerPeer := by
        rw [← counted, ← length_map system.pool.op, isChained, length_map]
      cases chained with
      | nil => cases whole
      | cons first rest =>
        have all : (first :: rest).countP (opCount · = opCount first) = (first :: rest).length := by
          refine countP_eq_length.mpr fun op member => decide_eq_true ?_
          have same := (alike _ (mem_map_of_mem member)).trans (alike _ (mem_map_of_mem mem_cons_self)).symm
          exact Option.some.inj same
        have half := grouped.half (opCount first)
        rw [isAll, countP_append, all, whole] at half
        exact absurd half (by rw [maxOpsPerPeer_eq]; omega)
    next => exact ⟨_, rfl⟩
  obtain ⟨sent, rest, final, lastOp, pending, isLast, other, same, posted⟩ := accounted.postFull done
  have kept : ∀ slot ∈ rest ++ [final], InGroup opCount system.pool final slot := by
    intro slot member
    rcases mem_append.mp member with early | last
    · exact same slot early
    · rw [mem_singleton.mp last]
      rfl
  have linked := posted.linked (.pending rank) id
  have behind := posted.linked .posted id
  have count := posted.counted rank
  have ended : tail _ (.pending rank) = some final := posted.ended (.pending rank) trivial (by simp [relist_source])
  simp only [relist_source, head, tail, ranks_withRank_self, ne_eq, reduceCtorEq,
    not_false_eq_true] at linked count ended
  rw [relist_target] at behind
  refine ⟨result, sent, rest ++ [final], done, pending ▸ accounted.linked (.pending rank) id,
    ne_nil_of_mem (mem_of_getLast? isLast), by simp, ?_, linked, ?_, count.symm,
    slots .posted, accounted.linked .posted id, behind⟩
  · -- the last operation that is posted is between an earlier one and the end of the chain
    intro slot member next inside alike
    have inGroup := alike.trans (kept next inside)
    have at_ (i slot : Nat) (found : (slots (.pending rank))[i]? = some slot) :
        ∃ op, system.pool.op slot = some op ∧ (system.submitted rank)[earlier.length + i]? = some op := by
      have same := congrArg (·[i]?) isChained
      simp only [getElem?_map, found, Option.map_some] at same
      obtain ⟨op, isOp, filled⟩ := Option.map_eq_some_iff.mp same.symm
      exact ⟨op, filled.symm, by rw [isAll, getElem?_append_right (Nat.le_add_right _ _), Nat.add_sub_cancel_left, isOp]⟩
    obtain ⟨i, isSlot⟩ := getElem?_of_mem member
    obtain ⟨small, -⟩ := List.getElem?_eq_some_iff.mp isSlot
    obtain ⟨first, firstOp, isFirst⟩ := at_ i slot (by rw [pending, getElem?_append_left small, isSlot])
    obtain ⟨op, opOp, isOp⟩ := at_ (sent.length - 1) lastOp (by
      rw [pending, getElem?_append_left (by omega), ← getLast?_eq_getElem?, isLast])
    obtain ⟨last, lastOp', isLastOp⟩ := at_ (sent.length + rest.length) final (by
      rw [pending, getElem?_append_right (by omega), Nat.add_sub_cancel_left, getElem?_concat_length])
    refine other ?_
    unfold InGroup at inGroup ⊢
    rw [firstOp, lastOp'] at inGroup
    rw [opOp, lastOp']
    exact congrArg some (grouped.contiguous _ _ _ _ _ _ (by omega) (by omega) isFirst isOp isLastOp
      (Option.some.inj inGroup))
  · rw [getLast?_concat, ended]

/-- While nothing was posted, a rank finds a slot until its chain holds all of them. -/
theorem Accounted.exists_append (accounted : Accounted 1 system slots) (unposted : system.pool.nextOps = none)
    (idle : system.progress = ⟨none, none⟩) (room : (system.ranks 0).count < maxOpsPerPeer) (proxyOp : α) :
    ∃ result, ncclLocalOpAppend system.pool 0 (system.ranks 0) proxyOp = some result := by
  refine Option.ne_none_iff_exists'.mp fun fails => ?_
  have dry : (system.ranks 0).freeOp = none ∧ system.pool.freeOps 0 = none := by
    cases own : (system.ranks 0).freeOp <;> cases shared : system.pool.freeOps 0 <;>
      simp [ncclLocalOpAppend, takeFreeOp, own, shared] at fails ⊢
  have all : List.range maxOpsPerPeer ⊆ slots (.pending 0) := by
    intro slot inside
    have owner := Nat.div_eq_of_lt (mem_range.mp inside)
    obtain ⟨place, member⟩ := (accounted.everySlot slot).mpr (by omega)
    have admits := accounted.admitted member
    rw [owner] at admits
    have held (empty : system.head place = none) : slot ∈ slots (.pending 0) := by
      rw [accounted.eq_nil empty] at member
      cases member
    cases place with
    | pending other => exact (admits : other = 0) ▸ member
    | free other => exact held ((admits : other = 0) ▸ dry.1)
    | shared other => exact held ((admits : other = 0) ▸ dry.2)
    | posted => exact held unposted
    | consuming => exact held (by simp [head, idle])
    | consumed => exact held (by simp [head, idle])
  have many := (subperm_of_subset nodup_range all).length_le
  rw [length_range, accounted.counted] at many
  omega

/-- A rank appends one operation after the other, each a group of its own. -/
theorem exists_appended (few : n ≤ maxOpsPerPeer) :
    ∃ system : ProxySystem Nat, Reachable id 1 16 system ∧ system.submitted 0 = List.range n ∧
      (system.ranks 0).count = n ∧ (system.ranks 0).full = decide (n = maxOpsPerPeer) ∧
      system.pool.nextOps = none ∧ system.progress = ⟨none, none⟩ ∧ system.delivered = [] := by
  induction n with
  | zero => exact ⟨initial 1, .refl, rfl, rfl, rfl, rfl, rfl, rfl⟩
  | succ n ih =>
    obtain ⟨system, reachable, submitted, count, full, unposted, idle, none⟩ := ih (by omega)
    obtain ⟨slots, accounted⟩ := accounted_of_reachable reachable
    obtain ⟨result, done⟩ := accounted.exists_append unposted idle (by omega) n
    have ready : (system.ranks 0).full = false := by rw [full, decide_eq_false_iff_not]; omega
    obtain ⟨stays, count', full'⟩ := append_result done
    rw [count] at count' full'
    refine ⟨_, reachable.tail (.append n Nat.one_pos ready done), ?_, count', full', stays.trans unposted, idle, none⟩
    rw [range_succ, ← submitted]
    exact update_self 0 (system.submitted 0 ++ [n]) system.submitted

theorem partial_post_of_singles : ∃ system : ProxySystem Nat, Reachable id 1 16 system ∧
    ∃ result kept, postFullChain id system.pool (system.ranks 0) = some result ∧ kept ≠ [] ∧
      Linked result.1.next result.2.nextOps kept none := by
  obtain ⟨system, reachable, submitted, -, full, -⟩ := exists_appended (Nat.le_refl maxOpsPerPeer)
  have grouped : Grouped id (system.submitted 0) := by
    rw [submitted]
    refine ⟨fun i j k first op last le le' isFirst isOp isLast same => ?_, fun group => ?_⟩
    · have index {i op : Nat} (found : (List.range maxOpsPerPeer)[i]? = some op) : i = op := by
        obtain ⟨_, is⟩ := List.getElem?_eq_some_iff.mp found
        rwa [getElem_range] at is
      obtain rfl := index isFirst
      obtain rfl := index isOp
      obtain rfl := index isLast
      exact Nat.le_antisymm le' (Nat.le_trans (Nat.le_of_eq same.symm) le)
    · exact Nat.le_trans (nodup_iff_count_le_one.mp nodup_range group) (by decide)
  obtain ⟨result, sent, kept, posted, -, -, some_, -, linked, -⟩ :=
    partial_post_keeps_groups id 1 16 system reachable 0 (full.trans (decide_eq_true rfl)) grouped
  exact ⟨system, reachable, result, kept, posted, some_, linked⟩

/-- In every interleaving, a rank has no more operations under way than slots. -/
theorem in_flight_bounded (opCount : α → Nat) (localRanks : Nat) (batchSize : Int) (system : ProxySystem α)
    (reachable : Reachable opCount localRanks batchSize system) (rank : Nat) :
    (system.submitted rank).length ≤ (system.deliveredOps rank).length + maxOpsPerPeer := by
  obtain ⟨slots, accounted⟩ := accounted_of_reachable reachable
  have distinct : (inFlight slots rank).Nodup := by
    have each := accounted.threaded.distinct
    have apart := @accounted.threaded.apart
    simp only [inFlight, nodup_append, mem_append, mem_filter]
    grind
  have own : inFlight slots rank ⊆ range' (rank * maxOpsPerPeer) maxOpsPerPeer := by
    intro slot member
    have owner : rank = slot / maxOpsPerPeer := by
      rcases mem_append.mp member with posted | pending
      · exact (of_decide_eq_true (mem_filter.mp posted).2).symm
      · exact accounted.admitted pending
    rw [mem_range'_1, owner, maxOpsPerPeer_eq]
    omega
  have few := distinct.length_le_of_subset own
  have log := congrArg length (accounted.logged rank)
  simp only [length_map, length_append, length_range'] at log few
  omega

theorem in_flight_full : ∃ system : ProxySystem Nat, Reachable id 1 16 system ∧ system.deliveredOps 0 = [] ∧
    (system.submitted 0).length = maxOpsPerPeer ∧
    (system.submitted 0).length ≤ (system.deliveredOps 0).length + maxOpsPerPeer := by
  obtain ⟨system, reachable, submitted, -, -, -, -, none⟩ := exists_appended (Nat.le_refl maxOpsPerPeer)
  refine ⟨system, reachable, by rw [deliveredOps, none]; rfl, ?_, in_flight_bounded id 1 16 system reachable 0⟩
  rw [submitted, length_range]

end NcclCore.ProxyOpsProofs
