import NcclCore.RmaCaptureProofs
import NcclCore.RmaCeProofs
import NcclCore.RmaPersistProofs

/-! On every path the WaitSignals that a rank has completed asked for no more
signals than were raised, except that the proxy thread takes one signal for several
where the entries of a captured wait repeat a peer and index. -/
namespace NcclCore
section
variable (programs : Fin n → List (RmaLaunch n))

/-- How often a signal was raised by the copies executed so far. -/
def rmaGraphRaised (state : RmaGraphState n) (slot : RmaSlot n) : Nat :=
  ((rmaGraphStream slot.src (programs slot.src)).take (state slot.src).pc).count
    (.writeSignal slot.ctx slot.dst slot.word)

/-- Captured on the copy engine: where the operations of the first launches of a rank
have been executed, as many signals were raised as their waits ask for. -/
def GraphWaitsCovered (state : RmaGraphState n) : Prop :=
  ∀ rank m, (rmaGraphStream rank ((programs rank).take m)).length ≤ (state rank).pc →
    ∀ ctx peer signalIdx, awaited ((programs rank).take m) ctx peer signalIdx ≤
      rmaGraphRaised programs state ⟨ctx, signalIdx, peer, rank⟩

/-- The same on the copy engine outside of a graph. -/
def CeWaitsCovered (state : RmaCeState n) : Prop :=
  ∀ rank m, ((rmaCeBlocks rank (programs rank) .initial).take m).flatten.length ≤ (state rank).pc →
    ∀ ctx peer signalIdx, awaited ((programs rank).take m) ctx peer signalIdx ≤
      rmaCeRaised programs state ⟨ctx, signalIdx, peer, rank⟩

/-- The same through the proxy. -/
def ProxyWaitsCovered (state : RmaProxyState n) : Prop :=
  ∀ rank m, ((rmaProxyBlocks (programs rank) .initial).take m).flatten.length ≤ (state.ranks rank).pc →
    ∀ ctx peer signalIdx, awaited ((programs rank).take m) ctx peer signalIdx ≤
      state.raised.count ⟨ctx, signalIdx, peer, rank⟩

end

/-- The same captured through the proxy. -/
def PersistWaitsCovered (programs : Fin n → RmaCaptured n) (state : RmaPersistState n) : Prop :=
  ∀ rank m, ((programs rank).blocks.take m).flatten.length ≤ (state.ranks rank).pc →
    ∀ ctx peer signalIdx, awaited ((programs rank).launches.take m) ctx peer signalIdx ≤
      state.raised.count ⟨ctx, signalIdx, peer, rank⟩

namespace RmaWaitProofs
open Lib Lib.Handshake RmaWaits RmaCaptureProofs List

/-- The signals that a launch waits for are its takes. -/
theorem total_launchNotes (launch : RmaLaunch n) (slot : RmaSlot n) :
    total (launchNotes launch) (slot.ctx, slot.word) = (launchEvents slot.dst launch).count ⟨.take, slot⟩ := by
  cases launch with
  | put =>
    refine (count_eq_zero.mpr fun member => ?_).symm
    obtain ⟨task, -, is⟩ := mem_flatMap.mp member
    split at is <;> simp at is
  | wait task =>
    obtain ⟨ctx, entries⟩ := task
    induction entries with
    | nil => rfl
    | cons entry rest ih =>
      have split : launchEvents slot.dst (.wait ⟨ctx, entry :: rest⟩) =
          replicate entry.nsignals ⟨.take, ⟨ctx, entry.signalIdx, entry.peer, slot.dst⟩⟩ ++
            launchEvents slot.dst (.wait ⟨ctx, rest⟩) := flatMap_cons
      rw [total_wait_cons, split, count_append, count_replicate]
      congr 1
      by_cases here : slot = ⟨ctx, entry.signalIdx, entry.peer, slot.dst⟩
      · rw [here]
        simp [RmaSlot.word]
      · rw [if_neg, if_neg]
        · simpa using fun same => here same.symm
        · intro key
          obtain ⟨ctx, word⟩ := Prod.mk.inj key
          exact here (RmaSlot.eq_of_word rfl ctx.symm word.symm)

theorem awaited_eq_count (launches : List (RmaLaunch n)) (slot : RmaSlot n) :
    awaited launches slot.ctx slot.src slot.signalIdx =
      (launches.flatMap (launchEvents slot.dst)).count ⟨.take, slot⟩ := by
  rw [awaited_eq_total]
  induction launches with
  | nil => rfl
  | cons launch rest ih =>
    rw [flatMap_cons, flatMap_cons, total_append, count_append]
    congr 1
    exact total_launchNotes launch slot

/-- Every put writes its signal. -/
theorem count_le_writes (events : List (Event (RmaSlot n))) (slot : RmaSlot n) :
    events.count ⟨.put, slot⟩ ≤ (events.flatMap eventOps).count (.writeSignal slot.ctx slot.dst slot.word) := by
  induction events with
  | nil => exact le_rfl
  | cons event rest ih =>
    rw [flatMap_cons, count_append, count_cons]
    by_cases here : event = ⟨.put, slot⟩
    · subst here
      have written : (eventOps ⟨.put, slot⟩).count (.writeSignal slot.ctx slot.dst slot.word) = 1 := by
        simp [eventOps, waitOp, resetOp, writeOp, RmaSlot.word]
      rw [if_pos (beq_self_eq_true _)]
      omega
    · rw [if_neg fun equal => here (eq_of_beq equal)]
      omega

theorem graph_covered (run : rmaGraphRun programs ranks = some state) : GraphWaitsCovered programs state := by
  intro rank m executed ctx peer signalIdx
  obtain ⟨abs, reached, sim⟩ := reachable_of_run run
  have taken : awaited ((programs rank).take m) ctx peer signalIdx ≤
      (rmaNet programs).finished abs .take ⟨ctx, signalIdx, peer, rank⟩ := by
    rw [stream_eq, length_stream, sim.pc] at executed
    have first : ((programs rank).take m).flatMap (launchEvents rank) <+:
        ((programs rank).flatMap (launchEvents rank)).take (abs.done rank) := by
      refine prefix_take_iff.mpr ⟨?_, by omega⟩
      obtain ⟨rest, split⟩ := take_prefix m (programs rank)
      exact ⟨rest.flatMap (launchEvents rank), by rw [← flatMap_append, split]⟩
    have counted := awaited_eq_count ((programs rank).take m) ⟨ctx, signalIdx, peer, rank⟩
    rw [counted]
    exact first.sublist.count_le _
  have put : (rmaNet programs).finished abs .put ⟨ctx, signalIdx, peer, rank⟩ ≤
      rmaGraphRaised programs state ⟨ctx, signalIdx, peer, rank⟩ := by
    refine le_trans (count_le_writes _ _) ?_
    rw [rmaGraphRaised, stream_eq]
    refine List.Sublist.count_le _ (List.IsPrefix.sublist (prefix_take_iff.mpr ⟨?_, ?_⟩))
    · obtain ⟨rest, split⟩ := take_prefix (abs.done peer) ((programs peer).flatMap (launchEvents peer))
      exact ⟨rest.flatMap eventOps, by rw [← flatMap_append]; exact congrArg _ split⟩
    · rw [length_stream, sim.pc]
      have short := length_take_le (abs.done peer) ((programs peer).flatMap (launchEvents peer))
      exact le_trans (Nat.mul_le_mul_left 3 short) le_self_add
  exact taken.trans (le_trans (reached.takes_le_puts _) put)

/-- In every run on each of the paths the waits completed are covered by signals
raised; of captured programs through the proxy, those whose waits do not repeat a peer
and index and whose counts stay below `2 ^ 64`. The plans are divided by the LSA teams. -/
theorem waits_covered (n : Nat) (lsaTeam : Fin n → Nat) (plans : Fin n → List (RmaLaunch n)) :
    (∀ ranks state, rmaGraphRun (cePlans lsaTeam plans) ranks = some state →
      GraphWaitsCovered (cePlans lsaTeam plans) state) ∧
    (∀ ranks state, rmaCeRun (cePlans lsaTeam plans) ranks = some state →
      CeWaitsCovered (cePlans lsaTeam plans) state) ∧
    (∀ events state, rmaProxyRun (proxyPlans lsaTeam plans) events = some state →
      ProxyWaitsCovered (proxyPlans lsaTeam plans) state) ∧
    ∀ plays : Fin n → List Nat,
      let programs := fun rank => ⟨proxyPlans lsaTeam plans rank, plays rank⟩
      (∀ rank, (programs rank).Separate) → ∀ events state, rmaPersistRun programs events = some state →
        PersistWaitsCovered programs state := by
  refine ⟨fun ranks state run => graph_covered run, fun ranks state run rank m executed => ?_,
    fun events state run rank m executed => ?_, fun plays separate events state run rank m executed => ?_⟩
  · exact RmaCeProofs.awaited_le_raised run executed
  · exact RmaProxyProofs.awaited_le_raised run executed
  · exact RmaPersistProofs.awaited_le_raised separate run executed

/-- A rank that signals the other, which waits for the given numbers of signals. -/
def pairPlans (counts : List (Fin (2 ^ 31))) (rank : Fin 2) : List (RmaLaunch 2) :=
  if rank.val = 0 then [.put [⟨0, rank.rev, 0, true⟩]] else [.wait ⟨0, counts.map fun count => ⟨rank.rev, 0, count⟩⟩]

/-- The same captured, with the ranks in different teams. -/
def pairCaptured (counts : List (Fin (2 ^ 31))) (rank : Fin 2) : RmaCaptured 2 :=
  ⟨proxyPlans Fin.val (pairPlans counts) rank, [0]⟩

/-- The put and the wait of the captured programs, one after the other. -/
def pairEvents (src dst : Fin 2) : List (RmaPersistEvent 2) :=
  [.stream src, .poll src 0 0, .land 0, .poll src 0 0, .stream src, .stream src, .stream dst, .poll dst 0 0,
    .poll dst 0 0, .stream dst, .stream dst]

theorem pairCaptured_separate : ∀ rank, (pairCaptured [1] rank).Separate := by
  have notes : (pairCaptured [1] 1).launches.flatMap launchNotes = [((0, 0), 1)] := rfl
  refine Fin.forall_fin_two.mpr ⟨⟨?_, fun _ _ _ => Nat.two_pow_pos 64⟩, fun task member => ?_,
    fun ctx peer signalIdx => ?_⟩
  · rintro task (_ | ⟨_, none⟩)
    cases none
  · rcases member with _ | ⟨_, none⟩
    · exact pairwise_singleton _ _
    · cases none
  · rw [RmaWaits.awaited_eq_total, notes, total_cons]
    split <;> simp [total]

theorem exists_of_isSome {result : Option α} {property : α → Prop} (runs : result.isSome)
    (holds : ∀ state, result = some state → property state) : ∃ state, result = some state ∧ property state := by
  obtain ⟨state, run⟩ := Option.isSome_iff_exists.mp runs
  exact ⟨state, run, holds state run⟩

/-- In one team the copy engine does the put and the wait, in different teams the proxy. -/
theorem pair_signal_covered :
    (∃ state, rmaGraphRun (cePlans (fun _ => 0) (pairPlans [1])) [0, 0, 0, 1, 1, 1] = some state ∧
      GraphWaitsCovered (cePlans (fun _ => 0) (pairPlans [1])) state) ∧
    (∃ state, rmaCeRun (cePlans (fun _ => 0) (pairPlans [1])) [0, 0, 1] = some state ∧
      CeWaitsCovered (cePlans (fun _ => 0) (pairPlans [1])) state) ∧
    (∃ state, rmaProxyRun (proxyPlans Fin.val (pairPlans [1]))
        [.stream 0, .issue 0 0 1, .land 0, .complete 0 0 1, .stream 0, .stream 1] = some state ∧
      ProxyWaitsCovered (proxyPlans Fin.val (pairPlans [1])) state) ∧
    ∃ state, rmaPersistRun (pairCaptured [1]) (pairEvents 0 1) = some state ∧
      PersistWaitsCovered (pairCaptured [1]) state := by
  obtain ⟨graph, ce, -⟩ := waits_covered 2 (fun _ => 0) (pairPlans [1])
  obtain ⟨-, -, proxy, persist⟩ := waits_covered 2 Fin.val (pairPlans [1])
  exact ⟨exists_of_isSome (by decide +kernel) (graph _), exists_of_isSome (by decide +kernel) (ce _),
    exists_of_isSome (by decide +kernel) (proxy _),
    exists_of_isSome (by decide +kernel) (persist (fun _ => [0]) pairCaptured_separate _)⟩

/-- A captured wait with two entries for one signal each of the same peer and index
completes through the proxy although one signal was raised. -/
theorem repeated_entries_share_signal :
    ∃ state, rmaPersistRun (pairCaptured [1, 1]) (pairEvents 0 1) = some state ∧
      ¬ PersistWaitsCovered (pairCaptured [1, 1]) state := by
  have ends : (rmaPersistRun (pairCaptured [1, 1]) (pairEvents 0 1)).map
      (fun state => ((state.ranks 1).pc, state.raised)) = some (3, [⟨0, 0, 0, 1⟩]) := by decide +kernel
  obtain ⟨state, run, is⟩ := Option.map_eq_some_iff.mp ends
  obtain ⟨pc, raised⟩ := Prod.mk.inj is
  refine ⟨state, run, fun covered => ?_⟩
  have enough := covered 1 1 (by rw [pc]; decide +kernel) 0 0 0
  rw [raised] at enough
  exact absurd enough (by decide +kernel)

end NcclCore.RmaWaitProofs
