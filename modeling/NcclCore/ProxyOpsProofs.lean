import NcclCore.ProxyOps
import NcclCore.Lib.Threads

/-! Slots are conserved and operations keep their order. Every step moves slots from one
list to another, so it is enough to show that the two lists it touches are threaded as
before, that the ends kept beside them are right, and that the operations of a rank that
are still in flight are those it appended and that were not delivered. -/
namespace NcclCore.ProxyOpsProofs
open Lib ProxySystem Function
open List hiding head tail
variable {α : Type} {localRanks rank : Nat} {system : ProxySystem α} {slots : SlotPlace → List Nat}
  {pass : PostedPass}

/-- The end of a chain that is kept beside its head. -/
def tail (system : ProxySystem α) : SlotPlace → Option Nat
  | .pending rank => (system.ranks rank).nextOpsEnd
  | .posted => system.pool.nextOpsEnd
  | .consumed rank => system.progress.pass.bind (·.freeOpEnd rank)
  | _ => none

def KeepsTail : SlotPlace → Prop
  | .pending _ | .posted | .consumed _ => True
  | _ => False

/-- The slots are in the given lists. -/
structure Accounted (localRanks : Nat) (system : ProxySystem α) (slots : SlotPlace → List Nat) : Prop where
  threaded : Threaded system.pool.next SlotPlace.Dangling system.head slots
  everySlot : ∀ slot, (∃ place, slot ∈ slots place) ↔ slot / maxOpsPerPeer < localRanks
  admitted : ∀ {place slot}, slot ∈ slots place → place.Admits (slot / maxOpsPerPeer)
  counted : ∀ rank, (slots (.pending rank)).length = (system.ranks rank).count
  ended : ∀ place {last}, KeepsTail place → (slots place).getLast? = some last → tail system place = some last
  logged : ∀ rank, (system.submitted rank).map some =
    (system.deliveredOps rank).map some ++ (inFlight slots rank).map system.pool.op

/-! ### The pool at the start -/

/-- All slots are in the shared lists. -/
def initialSlots (localRanks : Nat) : SlotPlace → List Nat
  | .shared rank => if rank < localRanks then List.range' (rank * maxOpsPerPeer) maxOpsPerPeer else []
  | _ => []

theorem maxOpsPerPeer_eq : maxOpsPerPeer = 2048 := rfl

theorem mem_initialSlots :
    slot ∈ initialSlots localRanks place ↔
      place = .shared (slot / maxOpsPerPeer) ∧ slot / maxOpsPerPeer < localRanks := by
  cases place with
  | shared rank =>
    by_cases isRank : rank < localRanks
    · simp only [initialSlots, if_pos isRank, List.mem_range'_1, SlotPlace.shared.injEq, maxOpsPerPeer_eq]
      omega
    · simp only [initialSlots, if_neg isRank, not_mem_nil, SlotPlace.shared.injEq, false_iff]
      rintro ⟨rfl, inside⟩
      exact isRank inside
  | _ => simp [initialSlots]

/-- The slots from here to the end of the rank. -/
theorem initial_linked (rank count : Nat) (bound : count < maxOpsPerPeer)
    (ends : slot + count + 1 = (rank + 1) * maxOpsPerPeer) :
    Linked (initial localRanks : ProxySystem α).pool.next (some slot) (List.range' slot (count + 1)) none := by
  induction count generalizing slot with
  | zero =>
    refine ⟨rfl, if_pos ?_⟩
    rw [maxOpsPerPeer_eq] at ends ⊢
    omega
  | succ count ih =>
    have goesOn : (initial localRanks : ProxySystem α).pool.next slot = some (slot + 1) := by
      refine if_neg ?_
      rw [maxOpsPerPeer_eq] at ends bound ⊢
      omega
    refine ⟨rfl, ?_⟩
    rw [goesOn]
    exact ih (by omega) (by omega)

theorem accounted_initial : Accounted localRanks (initial localRanks : ProxySystem α) (initialSlots localRanks) where
  threaded := {
    distinct := by
      intro place
      cases place with
      | shared rank =>
        by_cases isRank : rank < localRanks
        · simp only [initialSlots, if_pos isRank]
          exact List.nodup_range' ..
        · simp [initialSlots, isRank]
      | _ => exact nodup_nil
    apart := by
      intro slot place place' member member'
      rw [(mem_initialSlots.mp member).1, (mem_initialSlots.mp member').1]
    chain := by
      intro place
      apply Chain.of_linked
      cases place with
      | shared rank =>
        by_cases isRank : rank < localRanks
        · have first : (initial localRanks : ProxySystem α).head (.shared rank) = some (rank * maxOpsPerPeer) :=
            if_pos isRank
          simp only [first, initialSlots, if_pos isRank]
          exact initial_linked rank (maxOpsPerPeer - 1) (by decide) (by rw [maxOpsPerPeer_eq]; omega)
        · simp [head, initialSlots, initial, isRank, Linked]
      | _ => rfl }
  everySlot := by
    intro slot
    simp only [mem_initialSlots]
    refine ⟨?_, fun inside => ⟨_, rfl, inside⟩⟩
    rintro ⟨-, -, inside⟩
    exact inside
  admitted := by
    intro place slot member
    obtain ⟨rfl, -⟩ := mem_initialSlots.mp member
    exact rfl
  counted rank := rfl
  ended := by
    intro place last keeps ends
    cases place with
    | shared => exact keeps.elim
    | _ => cases ends
  logged rank := rfl

/-! ### Lists that do not change -/

/-- A step that leaves all lists alone. -/
theorem Accounted.same_lists (accounted : Accounted localRanks system slots)
    (sameNext : system'.pool.next = system.pool.next) (sameOp : system'.pool.op = system.pool.op)
    (same : ∀ place, system'.head place = system.head place ∧
      (slots place ≠ [] → tail system' place = tail system place))
    (sameCount : ∀ rank, (system'.ranks rank).count = (system.ranks rank).count)
    (sameSubmitted : system'.submitted = system.submitted) (sameDelivered : system'.delivered = system.delivered) :
    Accounted localRanks system' slots where
  threaded := by
    rw [sameNext, show system'.head = system.head from funext fun place => (same place).1]
    exact accounted.threaded
  __ := accounted
  counted rank := by rw [accounted.counted, sameCount]
  ended := by
    intro place last keeps ends
    rw [(same place).2 (ne_nil_of_mem (mem_of_getLast? ends))]
    exact accounted.ended place keeps ends
  logged rank := by
    rw [sameSubmitted, sameOp, deliveredOps, sameDelivered]
    exact accounted.logged rank

theorem head_consumed (inPass : system.progress.pass = some pass) (owner : Nat) :
    system.head (.consumed owner) = pass.held owner := by
  simp [head, inPass]

/-- The progress thread changes its locals and no list. -/
theorem Accounted.same_pass (accounted : Accounted localRanks system slots)
    (inPass : system.progress.pass = some pass) (sameHeld : ∀ owner, pass'.held owner = pass.held owner)
    (sameEnd : pass'.freeOpEnd = pass.freeOpEnd) :
    Accounted localRanks { system with progress := { system.progress with pass := some pass' } } slots := by
  refine accounted.same_lists rfl rfl (fun place => ?_) (fun _ => rfl) rfl rfl
  cases place with
  | consumed =>
    rw [head_consumed inPass, head_consumed rfl, sameHeld]
    exact ⟨rfl, fun _ => by simp [tail, inPass, sameEnd]⟩
  | _ => exact ⟨rfl, fun _ => rfl⟩

/-! ### Slots that move -/

section
variable {system' : ProxySystem α}

/-- A step that takes slots from one list to another. -/
theorem Accounted.move (accounted : Accounted localRanks system slots) (moving : List Nat) (ne : source ≠ target)
    (leaves : (slots source).Perm (moving ++ rest)) (arrives : more.Perm (moving ++ slots target))
    (left : Chain system'.pool.next source.Dangling (system'.head source) rest)
    (arrived : Chain system'.pool.next target.Dangling (system'.head target) more)
    (same : ∀ place, place ≠ source → place ≠ target → system'.head place = system.head place ∧
      (slots place ≠ [] → tail system' place = tail system place))
    (sameNext : ∀ slot, slot ∉ slots source → slot ∉ slots target → system'.pool.next slot = system.pool.next slot)
    (admits : ∀ slot ∈ moving, target.Admits (slot / maxOpsPerPeer))
    (counted : ∀ rank, (relist slots source target rest more (.pending rank)).length = (system'.ranks rank).count)
    (leftEnd : ∀ last, KeepsTail source → rest.getLast? = some last → tail system' source = some last)
    (arrivedEnd : ∀ last, KeepsTail target → more.getLast? = some last → tail system' target = some last)
    (logged : ∀ rank, (system'.submitted rank).map some =
      (system'.deliveredOps rank).map some ++
        (inFlight (relist slots source target rest more) rank).map system'.pool.op) :
    Accounted localRanks system' (relist slots source target rest more) where
  threaded := accounted.threaded.move ne leaves arrives left arrived
    (fun place atSource atTarget => (same place atSource atTarget).1) sameNext
  everySlot slot := (accounted.threaded.exists_mem_relist ne leaves arrives slot).trans (accounted.everySlot slot)
  admitted := by
    intro place slot member
    rcases (accounted.threaded.mem_relist_iff ne leaves arrives place slot).mp member with ⟨moved, rfl⟩ | ⟨-, before⟩
    · exact admits slot moved
    · exact accounted.admitted before
  counted := counted
  ended := by
    intro place last keeps ends
    by_cases atTarget : place = target
    · subst atTarget
      exact arrivedEnd last keeps (by simpa using ends)
    · by_cases atSource : place = source
      · subst atSource
        exact leftEnd last keeps (by simpa [relist_source ne] using ends)
      · rw [relist_of_ne atSource atTarget] at ends
        rw [(same place atSource atTarget).2 (ne_nil_of_mem (mem_of_getLast? ends))]
        exact accounted.ended place keeps ends
  logged := logged

end

section
variable (accounted : Accounted localRanks system slots)
include accounted

theorem Accounted.linked (place : SlotPlace) (closed : ¬ place.Dangling) :
    Linked system.pool.next (system.head place) (slots place) none := by
  have chain := accounted.threaded.chain place
  rw [show SlotPlace.Dangling place = False from eq_false closed] at chain
  exact chain.linked

theorem Accounted.eq_nil (empty : system.head place = none) : slots place = [] := by
  have chain := accounted.threaded.chain place
  rw [empty] at chain
  exact chain.eq_nil

theorem Accounted.exists_cons (first : system.head place = some slot) : ∃ rest, slots place = slot :: rest := by
  have chain := accounted.threaded.chain place
  rw [first] at chain
  exact chain.exists_cons

end

theorem exists_place_of_mem_inFlight (member : slot ∈ inFlight slots rank) :
    ∃ place, slot ∈ slots place ∧ ∀ owner, place ≠ .free owner := by
  simp only [inFlight, mem_append, mem_filter] at member
  rcases member with ⟨inside | inside, -⟩ | inside
  · exact ⟨.consuming, inside, nofun⟩
  · exact ⟨.posted, inside, nofun⟩
  · exact ⟨.pending rank, inside, nofun⟩

/-! ### A rank takes a slot -/

theorem ranks_withRank_self : (system.withRank rank result).ranks rank = result.2 :=
  update_self ..

theorem ranks_withRank_of_ne (ne : other ≠ rank) : (system.withRank rank result).ranks other = system.ranks other :=
  update_of_ne ne ..

/-- A field of the record of a rank that a step does not change. -/
theorem field_withRank (field : PeerOps → β) (same : field result.2 = field (system.ranks rank)) (other : Nat) :
    field ((system.withRank rank result).ranks other) = field (system.ranks other) := by
  by_cases here : other = rank
  · subst here
    rw [ranks_withRank_self, same]
  · rw [ranks_withRank_of_ne here]

/-- The shared list was taken over. -/
def exchanged (system : ProxySystem α) (rank : Nat) : ProxySystem α :=
  system.withRank rank ({ system.pool with freeOps := update system.pool.freeOps rank none },
    { system.ranks rank with freeOp := system.pool.freeOps rank })

theorem Accounted.exchange (accounted : Accounted localRanks system slots)
    (empty : (system.ranks rank).freeOp = none) :
    Accounted localRanks (exchanged system rank)
      (relist slots (.shared rank) (.free rank) [] (slots (.shared rank))) := by
  have nothing : slots (.free rank) = [] := accounted.eq_nil empty
  have taken : (exchanged system rank).head (.free rank) = system.head (.shared rank) := by
    simp [head, exchanged, ranks_withRank_self]
  apply accounted.move (slots (.shared rank)) (by simp) (by simp) (by simp [nothing])
  case left => exact .of_linked (update_self ..)
  case arrived =>
    rw [taken]
    exact .of_linked (accounted.linked (.shared rank) id)
  case same =>
    intro place notShared notFree
    cases place with
    | free => exact ⟨congrArg PeerOps.freeOp (ranks_withRank_of_ne (by simpa using notFree)), fun _ => rfl⟩
    | shared => exact ⟨update_of_ne (by simpa using notShared) .., fun _ => rfl⟩
    | pending other =>
      exact ⟨field_withRank PeerOps.nextOps rfl other, fun _ => field_withRank PeerOps.nextOpsEnd rfl other⟩
    | _ => exact ⟨rfl, fun _ => rfl⟩
  case sameNext => intros; rfl
  case admits => exact fun slot member => (accounted.admitted member : SlotPlace.Admits _ (.shared rank))
  case counted =>
    intro other
    rw [relist_of_ne (by simp) (by simp), accounted.counted]
    exact (field_withRank PeerOps.count rfl other).symm
  case leftEnd => exact fun last keeps => keeps.elim
  case arrivedEnd => exact fun last keeps => keeps.elim
  case logged =>
    intro other
    exact accounted.logged other

@[simp] theorem chainOp_eq (pool : OpsPool α) (ops : PeerOps) (opIndex : Nat) (proxyOp : α) :
    chainOp pool ops opIndex proxyOp =
      let chain := linkBehind (update pool.next opIndex none) ops.nextOps ops.nextOpsEnd (some opIndex)
      ({ pool with op := update pool.op opIndex (some proxyOp), next := chain.1 },
        { ops with
          nextOps := chain.2
          nextOpsEnd := some opIndex
          count := ops.count + 1
          full := decide (ops.count + 1 = maxOpsPerPeer) }) := by
  obtain ⟨count, freeOp, nextOps, nextOpsEnd, full⟩ := ops
  cases nextOps <;> cases nextOpsEnd <;> rfl

/-- The system after an operation went into this slot. -/
def chained (system : ProxySystem α) (rank opIndex : Nat) (proxyOp : α) : ProxySystem α :=
  { system.withRank rank (chainOp system.pool
      { system.ranks rank with freeOp := system.pool.next opIndex } opIndex proxyOp) with
    submitted := update system.submitted rank (system.submitted rank ++ [proxyOp]) }

section
variable (accounted : Accounted localRanks system slots)
include accounted

theorem Accounted.chain (proxyOp : α) (first : (system.ranks rank).freeOp = some opIndex) :
    ∃ slots', Accounted localRanks (chained system rank opIndex proxyOp) slots' := by
  obtain ⟨rest, free⟩ : ∃ rest, slots (.free rank) = opIndex :: rest := accounted.exists_cons first
  have freeLinked : Linked system.pool.next (system.pool.next opIndex) rest none := by
    have whole := accounted.linked (.free rank) id
    rw [free] at whole
    exact whole.2
  have ended : ∀ last, (slots (.pending rank)).getLast? = some last → (system.ranks rank).nextOpsEnd = some last :=
    fun last isLast => accounted.ended (.pending rank) trivial isLast
  have fresh : ∀ place, opIndex ∈ slots place → place = .free rank :=
    fun place member => accounted.threaded.apart member (free ▸ mem_cons_self)
  have notPending : opIndex ∉ slots (.pending rank) := fun member => nomatch fresh _ member
  have linked : Linked (update system.pool.next opIndex none) (system.ranks rank).nextOps
      (slots (.pending rank)) none :=
    (accounted.linked (.pending rank) id).update_of_notMem notPending
  have unchanged : ∀ slot, slot ∉ slots (.pending rank) → slot ≠ opIndex →
      (chained system rank opIndex proxyOp).pool.next slot = system.pool.next slot := by
    intro slot outside other
    simp [chained, withRank, linkBehind_of_notMem linked ended outside, update_of_ne other]
  have distinct := accounted.threaded.distinct (.free rank)
  rw [free, nodup_cons] at distinct
  refine ⟨relist slots (.free rank) (.pending rank) rest (slots (.pending rank) ++ [opIndex]), ?_⟩
  apply accounted.move [opIndex] (by simp) (by simp [free]) perm_append_comm
  case left =>
    have first : (chained system rank opIndex proxyOp).head (.free rank) = system.pool.next opIndex := by
      simp [head, chained, ranks_withRank_self]
    apply Chain.of_linked
    rw [first]
    refine freeLinked.congr fun slot member => unchanged slot (fun other => ?_) ?_
    · have inFree : slot ∈ slots (.free rank) := free ▸ mem_cons_of_mem _ member
      exact nomatch accounted.threaded.apart inFree other
    · rintro rfl
      exact distinct.1 member
  case arrived =>
    apply Chain.of_linked
    simp only [head, chained, withRank, update_self, chainOp_eq]
    refine linkBehind_linked linked ⟨rfl, update_self ..⟩ ended (accounted.threaded.distinct _) ?_
    intro slot member added
    exact notPending (mem_singleton.mp added ▸ member)
  case same =>
    intro place notFree notPending
    cases place with
    | free => exact ⟨congrArg PeerOps.freeOp (ranks_withRank_of_ne (by simpa using notFree)), fun _ => rfl⟩
    | pending => simp [head, tail, chained, ranks_withRank_of_ne (show _ ≠ rank by simpa using notPending)]
    | shared | posted => simp [head, tail, chained, withRank]
    | _ => exact ⟨rfl, fun _ => rfl⟩
  case sameNext =>
    intro slot notFree outside
    exact unchanged slot outside fun same => notFree (by simp [free, same])
  case admits =>
    intro slot member
    rw [mem_singleton.mp member]
    exact (accounted.admitted (free ▸ mem_cons_self) : SlotPlace.Admits _ (.free rank))
  case counted =>
    intro other
    by_cases here : other = rank
    · subst here
      simp [chained, ranks_withRank_self, accounted.counted]
    · rw [relist_of_ne (by simp) (by simpa using here), accounted.counted, chained, ranks_withRank_of_ne here]
  case leftEnd => exact fun last keeps => keeps.elim
  case arrivedEnd =>
    intro last keeps isLast
    obtain rfl : opIndex = last := by simpa using isLast
    simp [tail, chained, ranks_withRank_self]
  case logged =>
    intro other
    have before : (inFlight slots other).map (chained system rank opIndex proxyOp).pool.op =
        (inFlight slots other).map system.pool.op := by
      refine map_congr_left fun slot member => ?_
      simp only [chained, withRank, chainOp_eq]
      refine update_of_ne ?_ ..
      rintro rfl
      obtain ⟨place, inside, notFree⟩ := exists_place_of_mem_inFlight member
      exact notFree rank (fresh place inside)
    by_cases here : other = rank
    · subst here
      have behind : inFlight (relist slots (.free other) (.pending other) rest (slots (.pending other) ++ [opIndex]))
          other = inFlight slots other ++ [opIndex] := by
        simp [inFlight, relist_of_ne]
      have filled : (chained system other opIndex proxyOp).pool.op opIndex = some proxyOp := by
        simp [chained, withRank]
      have submitted : (chained system other opIndex proxyOp).submitted other =
          system.submitted other ++ [proxyOp] := update_self ..
      rw [behind, submitted, map_append, map_append, before, ← append_assoc, map_singleton,
        map_singleton, filled, accounted.logged other]
      rfl
    · have elsewhere : inFlight (relist slots (.free rank) (.pending rank) rest (slots (.pending rank) ++ [opIndex]))
          other = inFlight slots other := by
        simp [inFlight, relist_of_ne, here]
      have submitted : (chained system rank opIndex proxyOp).submitted other = system.submitted other :=
        update_of_ne here ..
      rw [elsewhere, submitted, before, accounted.logged other]
      rfl

/-- An operation is appended, whichever list the slot comes from. -/
theorem Accounted.append (done : ncclLocalOpAppend system.pool rank (system.ranks rank) proxyOp = some result) :
    ∃ slots', Accounted localRanks { system.withRank rank result with
      submitted := update system.submitted rank (system.submitted rank ++ [proxyOp]) } slots' := by
  cases own : (system.ranks rank).freeOp with
  | some =>
    simp only [ncclLocalOpAppend, takeFreeOp, own, Option.map_some, Option.some.injEq] at done
    subst done
    exact accounted.chain proxyOp own
  | none =>
    cases shared : system.pool.freeOps rank with
    | none => simp [ncclLocalOpAppend, takeFreeOp, own, shared] at done
    | some opIndex =>
      simp only [ncclLocalOpAppend, takeFreeOp, own, shared, Option.map_some, Option.some.injEq] at done
      subst done
      have taken : ((exchanged system rank).ranks rank).freeOp = some opIndex := by
        rw [exchanged, ranks_withRank_self, shared]
      have same := (accounted.exchange own).chain proxyOp taken
      simpa [chained, exchanged, withRank] using same

/-! ### A chain is posted -/

omit accounted in
@[simp] theorem ncclProxyPost_eq (pool : OpsPool α) (nextOps nextOpsEnd : Option Nat) :
    ncclProxyPost pool nextOps nextOpsEnd =
      let chain := linkBehind pool.next pool.nextOps pool.nextOpsEnd nextOps
      { pool with next := chain.1, nextOps := chain.2, nextOpsEnd := nextOpsEnd } := by
  obtain ⟨next, op, posted, postedEnd, freeOps⟩ := pool
  cases posted <;> cases postedEnd <;> rfl

/-- The first operations of a chain are posted, up to and with `lastOp`. -/
theorem Accounted.post (ops : PeerOps)
    (cut : slots (.pending rank) = sent ++ rest) (isLast : sent.getLast? = some lastOp)
    (sameFree : ops.freeOp = (system.ranks rank).freeOp) (first : ops.nextOps = system.pool.next lastOp)
    (count : ops.count = rest.length) (ended : ∀ last, rest.getLast? = some last → ops.nextOpsEnd = some last) :
    Accounted localRanks (system.withRank rank
      (ncclProxyPost { system.pool with next := update system.pool.next lastOp none }
        (system.ranks rank).nextOps (some lastOp), ops))
      (relist slots (.pending rank) .posted rest (slots .posted ++ sent)) := by
  have whole : Linked system.pool.next (system.ranks rank).nextOps (sent ++ rest) none :=
    cut ▸ accounted.linked (.pending rank) id
  obtain ⟨between, early, late⟩ := whole.of_append
  obtain rfl := early.stop_eq isLast
  have distinct := accounted.threaded.distinct (.pending rank)
  rw [cut, nodup_append] at distinct
  have sentPending : ∀ slot ∈ sent, slot ∈ slots (.pending rank) := fun slot member => by simp [cut, member]
  have notPosted : ∀ slot, slot ∈ slots (.pending rank) → slot ∉ slots .posted :=
    fun slot member other => nomatch accounted.threaded.apart member other
  have lastSent := mem_of_getLast? isLast
  have posted : Linked (update system.pool.next lastOp none) system.pool.nextOps (slots .posted) none :=
    (accounted.linked .posted id).update_of_notMem (notPosted lastOp (sentPending lastOp lastSent))
  have postedEnd : ∀ last, (slots .posted).getLast? = some last → system.pool.nextOpsEnd = some last :=
    fun last => accounted.ended .posted trivial
  apply accounted.move sent (by simp) (by rw [cut]) perm_append_comm
  case left =>
    apply Chain.of_linked
    simp only [head, ranks_withRank_self, first]
    refine late.congr fun slot member => ?_
    have outside : slot ∉ slots .posted := notPosted slot (by simp [cut, member])
    simp only [withRank, ncclProxyPost_eq, linkBehind_of_notMem posted postedEnd outside]
    refine update_of_ne ?_ ..
    rintro rfl
    exact distinct.2.2 slot lastSent slot member rfl
  case arrived =>
    apply Chain.of_linked
    simp only [head, withRank, ncclProxyPost_eq]
    exact linkBehind_linked posted (early.redirect distinct.1 isLast) postedEnd (accounted.threaded.distinct _)
      fun slot member other => notPosted slot (sentPending slot other) member
  case same =>
    intro place notPending notPosted
    cases place with
    | free other => exact ⟨field_withRank PeerOps.freeOp sameFree other, fun _ => rfl⟩
    | pending => simp [head, tail, ranks_withRank_of_ne (show _ ≠ rank by simpa using notPending)]
    | shared => simp [head, tail, withRank]
    | posted => exact absurd rfl notPosted
    | _ => exact ⟨rfl, fun _ => rfl⟩
  case sameNext =>
    intro slot outside notPosted
    simp only [withRank, ncclProxyPost_eq, linkBehind_of_notMem posted postedEnd notPosted]
    refine update_of_ne ?_ ..
    rintro rfl
    exact outside (sentPending slot lastSent)
  case admits => exact fun slot member => trivial
  case counted =>
    intro other
    by_cases here : other = rank
    · subst here
      rw [relist_source (by simp), ranks_withRank_self, count]
    · rw [relist_of_ne (by simpa using here) (by simp), accounted.counted, ranks_withRank_of_ne here]
  case leftEnd =>
    intro last keeps ends
    simp only [tail, ranks_withRank_self]
    exact ended last ends
  case arrivedEnd =>
    intro last keeps ends
    obtain rfl : lastOp = last := by simpa [isLast] using ends
    simp [tail, withRank]
  case logged =>
    intro other
    have owner : ∀ slot ∈ sent, slot / maxOpsPerPeer = rank := fun slot member =>
      ((accounted.admitted (sentPending slot member) : SlotPlace.Admits _ (.pending rank)) : rank = _).symm
    have sameFlight : inFlight (relist slots (.pending rank) .posted rest (slots .posted ++ sent)) other =
        inFlight slots other := by
      by_cases here : other = rank
      · subst here
        have all := filter_eq_self.mpr fun slot member => decide_eq_true (owner slot member)
        simp [inFlight, relist_source, relist_of_ne, all, cut]
      · have none : sent.filter (· / maxOpsPerPeer = other) = [] :=
          filter_eq_nil_iff.mpr fun slot member same => here ((of_decide_eq_true same).symm.trans (owner slot member))
        simp [inFlight, relist_of_ne, none, here]
    rw [sameFlight, ncclProxyPost_eq]
    exact accounted.logged other

/-- What the loop over the chain has found: a cut behind the last operation that is not in the
group of the end. -/
def FoundCut (inGroup : Nat → Prop) (visited : List Nat) : Option Nat × Nat → Prop
  | (none, _) => ∀ slot ∈ visited, inGroup slot
  | (some lastOp, toSend) => ∃ sent rest, visited = sent ++ rest ∧ sent.getLast? = some lastOp ∧
      toSend = sent.length ∧ ¬ inGroup lastOp ∧ ∀ slot ∈ rest, inGroup slot

omit accounted in
theorem FoundCut.snoc (cut : FoundCut inGroup visited found) (same : inGroup slot) :
    FoundCut inGroup (visited ++ [slot]) found := by
  have both {list : List Nat} (all : ∀ slot ∈ list, inGroup slot) : ∀ other ∈ list ++ [slot], inGroup other := by
    intro other member
    rcases mem_append.mp member with old | new
    · exact all other old
    · exact mem_singleton.mp new ▸ same
  obtain ⟨_ | lastOp, toSend⟩ := found
  · exact both cut
  · obtain ⟨sent, rest, rfl, isLast, count, other, all⟩ := cut
    exact ⟨sent, rest ++ [slot], by simp, isLast, count, other, both all⟩

/-- The operation is in the group of the end. -/
def InGroup (opCount : α → Nat) (pool : OpsPool α) (final slot : Nat) : Prop :=
  (pool.op slot).map opCount = (pool.op final).map opCount

omit accounted in
theorem findLastOp_cut {pool : OpsPool α} {lastOp : Option Nat} {visited remaining : List Nat}
    (linked : Linked pool.next op (remaining ++ [final]) none) (fresh : final ∉ remaining)
    (enough : remaining.length ≤ fuel) (cut : FoundCut (InGroup opCount pool final) visited (lastOp, toSend)) :
    FoundCut (InGroup opCount pool final) (visited ++ remaining)
      (findLastOp opCount pool (some final) fuel op visited.length lastOp toSend) := by
  induction remaining generalizing fuel op lastOp toSend visited with
  | nil =>
    obtain rfl : op = some final := linked.1
    cases fuel <;> simpa [findLastOp] using cut
  | cons slot rest ih =>
    obtain ⟨rfl, linked⟩ := linked
    obtain ⟨other, fresh⟩ := not_or.mp (mem_cons.not.mp fresh)
    cases fuel with
    | zero => cases enough
    | succ =>
      have enough := Nat.le_of_succ_le_succ enough
      have length : (visited ++ [slot]).length = visited.length + 1 := length_append
      rw [findLastOp, if_neg (by simpa using Ne.symm other), append_cons, ← length]
      split
      next differs =>
        exact ih linked fresh enough ⟨visited ++ [slot], [], by simp, by simp, rfl, differs, by simp⟩
      next same => exact ih linked fresh enough (cut.snoc (not_not.mp same))

/-- The cut of a chain that is not empty. -/
theorem Accounted.found_cut (opCount : α → Nat) (pending : slots (.pending rank) = before ++ [final]) :
    FoundCut (InGroup opCount system.pool final) before (findLastOp opCount system.pool
      (system.ranks rank).nextOpsEnd (system.ranks rank).count (system.ranks rank).nextOps 0 none 0) := by
  have linked := accounted.linked (.pending rank) id
  have ended : (system.ranks rank).nextOpsEnd = some final :=
    accounted.ended (.pending rank) trivial (by rw [pending, getLast?_concat])
  have counted := accounted.counted rank
  have distinct := accounted.threaded.distinct (.pending rank)
  rw [pending] at linked counted distinct
  rw [length_append] at counted
  rw [ended]
  refine findLastOp_cut linked (fun member => ?_) (by omega) (show FoundCut _ [] (none, 0) by simp [FoundCut])
  exact (nodup_append.mp distinct).2.2 final member final (mem_singleton_self final) rfl

/-- A full chain is cut behind its last operation of another group. -/
theorem Accounted.postFull (done : postFullChain opCount system.pool (system.ranks rank) = some result) :
    ∃ sent rest final lastOp, slots (.pending rank) = sent ++ (rest ++ [final]) ∧ sent.getLast? = some lastOp ∧
      ¬ InGroup opCount system.pool final lastOp ∧ (∀ slot ∈ rest, InGroup opCount system.pool final slot) ∧
      Accounted localRanks (system.withRank rank (result.1, { result.2 with full := false }))
        (relist slots (.pending rank) .posted (rest ++ [final]) (slots .posted ++ sent)) := by
  rcases eq_nil_or_concat' (slots (.pending rank)) with empty | ⟨before, final, pending⟩
  · have counted := accounted.counted rank
    rw [empty] at counted
    simp [postFullChain, ← counted, findLastOp] at done
  have found := accounted.found_cut opCount pending
  unfold postFullChain at done
  split at done
  · cases done
  next lastOp toSend isCut =>
    cases done
    rw [isCut] at found
    obtain ⟨sent, rest, rfl, isLast, rfl, other, same⟩ := found
    have cut : slots (.pending rank) = sent ++ (rest ++ [final]) := by rw [pending, append_assoc]
    refine ⟨sent, rest, final, lastOp, cut, isLast, other, same, accounted.post _ cut isLast rfl rfl ?_ ?_⟩
    · have counted := accounted.counted rank
      simp only [cut, length_append] at counted ⊢
      omega
    · intro last ends
      exact accounted.ended (.pending rank) trivial (by rw [cut, getLast?_append, ends, Option.some_or])

theorem Accounted.start :
    ∃ slots', Accounted localRanks (system.withRank rank (ncclProxyStart system.pool (system.ranks rank))) slots' := by
  unfold ncclProxyStart
  split
  next empty =>
    refine ⟨slots, ?_⟩
    rw [show system.withRank rank (system.pool, system.ranks rank) = system by simp [withRank]]
    exact accounted
  next nonempty =>
    have linked := accounted.linked (.pending rank) id
    have some : slots (.pending rank) ≠ [] := by
      intro empty
      rw [empty] at linked
      exact nonempty linked
    have isLast := getLast?_eq_some_getLast some
    have ends := (linked.stop_eq isLast).symm
    have uncut : update system.pool.next ((slots (.pending rank)).getLast some) none = system.pool.next := by
      rw [← ends, update_eq_self]
    have posted := accounted.post { system.ranks rank with nextOps := none, nextOpsEnd := none, count := 0 }
      (append_nil _).symm isLast rfl ends.symm rfl nofun
    rw [uncut, ← accounted.ended (.pending rank) trivial isLast] at posted
    exact ⟨_, posted⟩

/-! ### The progress thread -/

theorem Accounted.take (idle : system.progress.pass = none) :
    ∃ slots', Accounted localRanks { system with
      pool := (takePostedOps system.pool system.progress).1
      progress := (takePostedOps system.pool system.progress).2 } slots' := by
  have noneConsumed : ∀ {system' : ProxySystem α} (owner : Nat), system'.progress.pass = some .initial →
      system'.head (.consumed owner) = system.head (.consumed owner) ∧ (slots (.consumed owner) ≠ [] →
        tail system' (.consumed owner) = tail system (.consumed owner)) := by
    intro system' owner inPass
    have empty : system.head (.consumed owner) = none := by simp [head, idle]
    refine ⟨?_, fun nonempty => absurd (accounted.eq_nil empty) nonempty⟩
    simp [head_consumed inPass, empty, PostedPass.held, PostedPass.initial]
  unfold takePostedOps
  split
  next opIndex resume =>
    refine ⟨slots, accounted.same_lists rfl rfl (fun place => ?_) (fun _ => rfl) rfl rfl⟩
    cases place with
    | consuming => exact ⟨resume.symm, fun _ => rfl⟩
    | consumed => exact noneConsumed _ rfl
    | _ => exact ⟨rfl, fun _ => rfl⟩
  next nothing =>
    have empty : slots .consuming = [] := accounted.eq_nil nothing
    refine ⟨relist slots .posted .consuming [] (slots .posted), ?_⟩
    apply accounted.move (slots .posted) (by simp) (by simp) (by simp [empty])
    case left => exact .of_linked rfl
    case arrived => exact .of_linked (accounted.linked .posted id)
    case same =>
      intro place notPosted notConsuming
      cases place with
      | posted => exact absurd rfl notPosted
      | consuming => exact absurd rfl notConsuming
      | consumed => exact noneConsumed _ rfl
      | _ => exact ⟨rfl, fun _ => rfl⟩
    case sameNext => intros; rfl
    case admits => intros; trivial
    case counted => exact fun other => by rw [relist_of_ne (by simp) (by simp), accounted.counted]
    case leftEnd => exact nofun
    case arrivedEnd => exact fun last keeps => keeps.elim
    case logged =>
      intro other
      have sameFlight : inFlight (relist slots .posted .consuming [] (slots .posted)) other = inFlight slots other := by
        simp [inFlight, relist_source, relist_of_ne, empty]
      rw [sameFlight]
      exact accounted.logged other

end

section
variable {peerOp : α}

/-- The slot is in front of those consumed before, and the first one is the end of the list
from then on. -/
theorem freePeerOp_spec (pool : OpsPool α) (pass : PostedPass) (opIndex : Nat) : ∃ next freeOpEnd,
    freePeerOp pool pass opIndex = ({ pool with next }, { pass with
      freeOp := update pass.freeOp (opIndex / maxOpsPerPeer) (some opIndex)
      freeOpEnd }) ∧ (∀ slot, slot ≠ opIndex → next slot = pool.next slot) ∧
    (∀ owner, owner ≠ opIndex / maxOpsPerPeer → freeOpEnd owner = pass.freeOpEnd owner) ∧
    ∀ consumed, opIndex ∉ consumed → Chain pool.next True (pass.freeOp (opIndex / maxOpsPerPeer)) consumed →
      (∀ last, consumed.getLast? = some last → pass.freeOpEnd (opIndex / maxOpsPerPeer) = some last) →
      Chain next True (some opIndex) (opIndex :: consumed) ∧
        ∀ last, (opIndex :: consumed).getLast? = some last → freeOpEnd (opIndex / maxOpsPerPeer) = some last := by
  cases before : pass.freeOp (opIndex / maxOpsPerPeer) with
  | none =>
    refine ⟨_, _, by rw [freePeerOp, before], fun _ _ => rfl, fun owner other => update_of_ne other .., ?_⟩
    intro consumed _ chain _
    obtain rfl := chain.eq_nil
    exact ⟨⟨pool.next opIndex, ⟨rfl, rfl⟩, .inr ⟨trivial, cons_ne_nil _ _⟩⟩, fun last ends => by simpa using ends⟩
  | some =>
    refine ⟨_, _, by rw [freePeerOp, before], fun slot other => update_of_ne other .., fun _ _ => rfl, ?_⟩
    intro consumed fresh chain ended
    obtain ⟨rest, rfl⟩ := chain.exists_cons
    obtain ⟨stop, linked, -⟩ := chain
    refine ⟨⟨stop, ⟨rfl, ?_⟩, .inr ⟨trivial, cons_ne_nil _ _⟩⟩, fun last ends => ?_⟩
    · simp only [update_self]
      exact linked.update_of_notMem fresh
    · exact ended last (by simpa using ends)

theorem held_of_consuming (consuming : pass.returning = none) (owner : Nat) :
    pass.held owner = pass.freeOp owner := by
  simp [PostedPass.held, consuming]

variable (accounted : Accounted localRanks system slots) (inPass : system.progress.pass = some pass)
  (consuming : pass.returning = none) (next : system.progress.nextOps = some opIndex)
  (found : system.pool.op opIndex = some peerOp)
include accounted inPass consuming next found

/-- An operation is delivered and its slot waits to be given back. -/
theorem Accounted.free :
    ∃ slots', Accounted localRanks { system with
      pool := (freePeerOp system.pool pass opIndex).1
      progress := ⟨system.pool.next opIndex, some (freePeerOp system.pool pass opIndex).2⟩
      delivered := system.delivered ++ [(opIndex / maxOpsPerPeer, peerOp)] } slots' := by
  obtain ⟨rest, chain⟩ : ∃ rest, slots .consuming = opIndex :: rest := accounted.exists_cons next
  have whole : Linked system.pool.next system.progress.nextOps (opIndex :: rest) none :=
    chain ▸ accounted.linked .consuming id
  have distinct := accounted.threaded.distinct .consuming
  rw [chain, nodup_cons] at distinct
  have held := held_of_consuming consuming
  have old := accounted.threaded.chain (.consumed (opIndex / maxOpsPerPeer))
  rw [head_consumed inPass, held] at old
  have fresh : opIndex ∉ slots (.consumed (opIndex / maxOpsPerPeer)) := fun member =>
    nomatch accounted.threaded.apart member (chain ▸ mem_cons_self : opIndex ∈ slots .consuming)
  obtain ⟨next, freeOpEnd, is, sameNext, sameEnd, inFront⟩ := freePeerOp_spec system.pool pass opIndex
  obtain ⟨arrived, ended⟩ := inFront _ fresh old fun last isLast => by
    simpa [tail, inPass] using accounted.ended (.consumed (opIndex / maxOpsPerPeer)) trivial isLast
  have held' : ∀ owner, PostedPass.held { pass with
      freeOp := update pass.freeOp (opIndex / maxOpsPerPeer) (some opIndex), freeOpEnd } owner =
      update pass.freeOp (opIndex / maxOpsPerPeer) (some opIndex) owner := held_of_consuming consuming
  rw [is]
  refine ⟨relist slots .consuming (.consumed (opIndex / maxOpsPerPeer)) rest
    (opIndex :: slots (.consumed (opIndex / maxOpsPerPeer))), ?_⟩
  apply accounted.move [opIndex] (by simp) (by simp [chain]) (by simp)
  case left =>
    apply Chain.of_linked
    refine whole.2.congr fun slot member => sameNext slot ?_
    rintro rfl
    exact distinct.1 member
  case arrived =>
    rw [head_consumed rfl, held', update_self]
    exact arrived
  case same =>
    intro place notConsuming notConsumed
    cases place with
    | consuming => exact absurd rfl notConsuming
    | consumed owner =>
      have other : owner ≠ opIndex / maxOpsPerPeer := by simpa using notConsumed
      rw [head_consumed rfl, held', update_of_ne other, head_consumed inPass, held]
      exact ⟨rfl, fun _ => (sameEnd owner other).trans (by simp [tail, inPass])⟩
    | _ => exact ⟨rfl, fun _ => rfl⟩
  case sameNext =>
    intro slot notConsuming _
    refine sameNext slot ?_
    rintro rfl
    exact notConsuming (chain ▸ mem_cons_self)
  case admits =>
    intro slot member
    rw [mem_singleton.mp member]
    rfl
  case counted => exact fun other => by rw [relist_of_ne (by simp) (by simp), accounted.counted]
  case leftEnd => exact fun last keeps => keeps.elim
  case arrivedEnd => exact fun last _ => ended last
  case logged =>
    intro other
    have log := accounted.logged other
    have rest_eq : inFlight (relist slots .consuming (.consumed (opIndex / maxOpsPerPeer)) rest
        (opIndex :: slots (.consumed (opIndex / maxOpsPerPeer)))) other =
        (rest ++ slots .posted).filter (· / maxOpsPerPeer = other) ++ slots (.pending other) := by
      simp [inFlight, relist_source, relist_of_ne]
    rw [rest_eq]
    simp only [inFlight, chain, cons_append] at log
    by_cases here : opIndex / maxOpsPerPeer = other
    · simp [log, deliveredOps, here, found]
    · simp [log, deliveredOps, here]

theorem Accounted.consume :
    ∃ slots', Accounted localRanks { system with
      pool := (consumeOp opCount system.pool pass opIndex peerOp).1
      progress := (consumeOp opCount system.pool pass opIndex peerOp).2
      delivered := system.delivered ++ [(opIndex / maxOpsPerPeer, peerOp)] } slots' := by
  let counting : PostedPass := { pass with
    count := pass.countFor (opIndex / maxOpsPerPeer) (opCount peerOp)
    lastOpCount := opCount peerOp
    lastPeer := some (opIndex / maxOpsPerPeer) }
  have counted : Accounted localRanks
      { system with progress := { system.progress with pass := some counting } } slots :=
    accounted.same_pass inPass (fun _ => rfl) rfl
  exact counted.free rfl consuming next found

end

/-! ### Slots are given back -/

section

theorem held_of_returning (returning : pass.returning = some peer) (owner : Nat) :
    pass.held owner = if owner < peer then none else pass.freeOp owner := by
  simp [PostedPass.held, returning]

variable (accounted : Accounted localRanks system slots) (inPass : system.progress.pass = some pass)
include accounted inPass

section
variable (returning : pass.returning = some peer) (first : pass.freeOp peer = some newFree)
  (final : pass.freeOpEnd peer = some last)
include returning first final

/-- What the progress thread knows of the slots of the rank whose turn it is. -/
theorem Accounted.ended_of_returning :
    system.head (.consumed peer) = some newFree ∧ (slots (.consumed peer)).getLast? = some last := by
  have head : system.head (.consumed peer) = some newFree := by
    rw [head_consumed inPass, held_of_returning returning, if_neg (Nat.lt_irrefl peer), first]
  obtain ⟨rest, chain⟩ := accounted.exists_cons head
  have isLast := getLast?_eq_some_getLast (ne_nil_of_mem (chain ▸ mem_cons_self : newFree ∈ _))
  have ended := accounted.ended (.consumed peer) trivial isLast
  simp only [tail, inPass, Option.bind_some, final, Option.some.injEq] at ended
  exact ⟨head, by rw [isLast, ended]⟩

theorem Accounted.retry (oldFree : Option Nat) : Accounted localRanks
      { system with pool := { system.pool with next := update system.pool.next last oldFree } } slots where
  threaded := by
    have dangles : SlotPlace.Dangling (.consumed peer) := trivial
    exact accounted.threaded.redirect dangles (accounted.ended_of_returning inPass returning first final).2
  __ := accounted
  ended := by
    intro place last keeps ends
    rw [← accounted.ended place keeps ends]
    cases place <;> rfl

theorem Accounted.giveBack : Accounted localRanks { system with
        pool := (returnOps system.pool pass peer newFree last).1
        progress := { system.progress with pass := some (returnOps system.pool pass peer newFree last).2 } }
      (relist slots (.consumed peer) (.shared peer) [] (slots (.consumed peer) ++ slots (.shared peer))) := by
  obtain ⟨head_eq, isLast⟩ := accounted.ended_of_returning inPass returning first final
  have member := mem_of_getLast? isLast
  have advanced : ∀ owner, (returnOps system.pool pass peer newFree last).2.held owner =
      if owner < peer + 1 then none else pass.freeOp owner := held_of_returning rfl
  apply accounted.move (slots (.consumed peer)) (by simp) (by simp) (List.Perm.refl _)
  case left =>
    rw [head_consumed rfl, advanced, if_pos (Nat.lt_succ_self peer)]
    exact .of_linked rfl
  case arrived =>
    obtain ⟨stop, linked, -⟩ := accounted.threaded.chain (.consumed peer)
    rw [head_eq] at linked
    apply Chain.of_linked
    simp only [head, returnOps, update_self]
    refine (linked.redirect (accounted.threaded.distinct _) isLast).append
      ((accounted.linked (.shared peer) id).update_of_notMem fun other => ?_)
    exact nomatch accounted.threaded.apart member other
  case same =>
    intro place notConsumed notShared
    cases place with
    | shared => exact ⟨update_of_ne (by simpa using notShared) .., fun _ => rfl⟩
    | consumed owner =>
      have other : owner ≠ peer := by simpa using notConsumed
      have sooner : owner < peer + 1 ↔ owner < peer := by omega
      rw [head_consumed rfl, advanced, head_consumed inPass, held_of_returning returning]
      simp [sooner, tail, inPass, returnOps]
    | _ => exact ⟨rfl, fun _ => rfl⟩
  case sameNext =>
    intro slot notConsumed _
    refine update_of_ne ?_ ..
    rintro rfl
    exact notConsumed member
  case admits => exact fun slot inside => (accounted.admitted inside : SlotPlace.Admits _ (.consumed peer))
  case counted => exact fun other => by rw [relist_of_ne (by simp) (by simp), accounted.counted]
  case leftEnd => exact nofun
  case arrivedEnd => exact fun last keeps => keeps.elim
  case logged =>
    intro other
    exact accounted.logged other

end

/-- After the last rank nothing is left to be given back. -/
theorem Accounted.leave (returning : pass.returning = some localRanks) :
    Accounted localRanks { system with progress := { system.progress with pass := none } } slots := by
  have empty : ∀ owner, slots (.consumed owner) = [] := by
    intro owner
    by_cases isRank : owner < localRanks
    · refine accounted.eq_nil ?_
      rw [head_consumed inPass, held_of_returning returning, if_pos isRank]
    · apply eq_nil_iff_forall_not_mem.mpr
      intro slot member
      have owned := accounted.admitted member
      exact isRank (owned ▸ (accounted.everySlot slot).mp ⟨_, member⟩)
  refine accounted.same_lists rfl rfl (fun place => ?_) (fun _ => rfl) rfl rfl
  cases place with
  | consumed owner =>
    have chain := accounted.threaded.chain (.consumed owner)
    rw [empty owner] at chain
    exact ⟨chain.head_eq.symm, fun nonempty => absurd (empty owner) nonempty⟩
  | _ => exact ⟨rfl, fun _ => rfl⟩

end

/-! ### Runs -/

theorem Accounted.step (accounted : Accounted localRanks system slots)
    (step : Step opCount localRanks batchSize system system') : ∃ slots', Accounted localRanks system' slots' := by
  cases step with
  | append proxyOp isRank ready done => exact accounted.append done
  | postFull isRank full done =>
    obtain ⟨sent, rest, final, lastOp, -, -, -, -, posted⟩ := accounted.postFull done
    exact ⟨_, posted⟩
  | @postError rank isRank full failed =>
    refine ⟨slots, accounted.same_lists rfl rfl (fun place => ?_) (field_withRank PeerOps.count rfl) rfl rfl⟩
    cases place with
    | free other => exact ⟨field_withRank PeerOps.freeOp rfl other, fun _ => rfl⟩
    | pending other =>
      exact ⟨field_withRank PeerOps.nextOps rfl other, fun _ => field_withRank PeerOps.nextOpsEnd rfl other⟩
    | _ => exact ⟨rfl, fun _ => rfl⟩
  | start => exact accounted.start
  | take idle => exact accounted.take idle
  | consume inPass consuming next found more => exact accounted.consume inPass consuming next found
  | stop inPass consuming last =>
    exact ⟨slots, accounted.same_pass inPass (fun owner => by simp [PostedPass.held, consuming]) rfl⟩
  | @skip pass peer inPass returning isRank nothing =>
    refine ⟨slots, accounted.same_pass inPass (fun owner => ?_) rfl⟩
    rw [held_of_returning rfl, held_of_returning returning]
    rcases Nat.lt_trichotomy owner peer with before | rfl | behind
    · rw [if_pos before, if_pos (by omega)]
    · rw [if_pos (Nat.lt_succ_self owner), if_neg (Nat.lt_irrefl owner), nothing]
    · rw [if_neg (by omega), if_neg (by omega)]
  | retry oldFree inPass returning isRank first final =>
    exact ⟨slots, accounted.retry inPass returning first final oldFree⟩
  | giveBack inPass returning isRank first final => exact ⟨_, accounted.giveBack inPass returning first final⟩
  | leave inPass returning => exact ⟨slots, accounted.leave inPass returning⟩

theorem accounted_of_reachable (reachable : Reachable opCount localRanks batchSize system) :
    ∃ slots, Accounted localRanks system slots := by
  induction reachable with
  | refl => exact ⟨_, accounted_initial⟩
  | tail _ step ih =>
    obtain ⟨slots, accounted⟩ := ih
    exact accounted.step step

end NcclCore.ProxyOpsProofs
