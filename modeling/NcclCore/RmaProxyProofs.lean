import NcclCore.RmaProxy
import NcclCore.RmaWaits
import NcclCore.Lib.Runs

/-! Through the proxy, and outside of a graph, no WaitSignal completes on too few
signals: the word of a signal is the number of signals that have arrived. -/
namespace NcclCore.RmaProxyProofs
open Lib RmaWaits Function List
variable {n : Nat}

/-! ### Signals in the network -/

/-- How many of the signals raised have arrived. -/
def arrived (raised flying : List (RmaSlot n)) (slot : RmaSlot n) : Nat := raised.count slot - flying.count slot

theorem arrived_le (raised flying : List (RmaSlot n)) (slot : RmaSlot n) :
    arrived raised flying slot ≤ raised.count slot :=
  Nat.sub_le _ _

/-- The words of the receivers are the numbers of the signals that have arrived. -/
structure Wire (words : Fin n → RmaWords) (raised flying : List (RmaSlot n)) : Prop where
  flies : ∀ slot, flying.count slot ≤ raised.count slot
  words : ∀ slot, words slot.dst slot.ctx slot.word = UInt64.ofNat (arrived raised flying slot)

variable {words : Fin n → RmaWords} {raised flying : List (RmaSlot n)}

theorem wire_initial : Wire (fun _ : Fin n => fun _ _ => 0) [] [] := ⟨fun _ => le_rfl, fun _ => rfl⟩

theorem arrived_raiseSignal (rank : Fin n) (task : RmaPut n) (slot : RmaSlot n) :
    arrived (raiseSignal rank task raised) (raiseSignal rank task flying) slot = arrived raised flying slot := by
  unfold arrived raiseSignal
  split
  · rw [count_append, count_append, Nat.add_sub_add_right]
  · rfl

theorem Wire.raise (wire : Wire words raised flying) (rank : Fin n) (task : RmaPut n) :
    Wire words (raiseSignal rank task raised) (raiseSignal rank task flying) := by
  refine ⟨fun slot => ?_, fun slot => by rw [arrived_raiseSignal, wire.words]⟩
  unfold raiseSignal
  split
  · rw [count_append, count_append]
    exact Nat.add_le_add_right (wire.flies slot) _
  · exact wire.flies slot

theorem count_eraseIdx (here : flying[i]? = some landed) (slot : RmaSlot n) :
    flying.count slot = (flying.eraseIdx i).count slot + if slot = landed then 1 else 0 := by
  obtain ⟨bound, rfl⟩ := List.getElem?_eq_some_iff.mp here
  rw [← (getElem_cons_eraseIdx_perm bound).count_eq slot, count_cons]
  congr 1
  by_cases same : slot = flying[i]
  · rw [if_pos same, if_pos (beq_iff_eq.mpr same.symm)]
  · rw [if_neg same, if_neg fun equal => same (eq_of_beq equal).symm]

theorem Wire.arrived_land (wire : Wire words raised flying) (here : flying[i]? = some landed) (slot : RmaSlot n) :
    arrived raised (flying.eraseIdx i) slot = arrived raised flying slot + if slot = landed then 1 else 0 := by
  have counted := count_eraseIdx here slot
  have flies := wire.flies slot
  unfold arrived
  omega

theorem Wire.land (wire : Wire words raised flying) (here : flying[i]? = some landed) :
    Wire (update words landed.dst
        ((words landed.dst).set landed.ctx landed.word (words landed.dst landed.ctx landed.word + 1)))
      raised (flying.eraseIdx i) := by
  refine ⟨fun slot => ?_, fun slot => ?_⟩
  · have counted := count_eraseIdx here slot
    have flies := wire.flies slot
    omega
  · rw [wire.arrived_land here]
    by_cases same : slot = landed
    · subst same
      rw [update_self, RmaWords.set_apply, if_pos ⟨rfl, rfl⟩, wire.words, if_pos rfl, UInt64.ofNat_add]
      rfl
    · rw [if_neg same, add_zero, ← wire.words]
      by_cases dst : slot.dst = landed.dst
      · rw [dst, update_self, RmaWords.set_apply, if_neg]
        rintro ⟨ctx, word⟩
        exact same (RmaSlot.eq_of_word dst ctx word)
      · rw [update_of_ne dst]

/-! ### The waits of a stream -/

def asWait : RmaProxyOp n → Option ((Nat × Nat) × UInt64)
  | .waitSignal ctx slot value => some ((ctx, slot), value)
  | _ => none

theorem putDescs_signalsHost (tasks : List (RmaPut n)) (host : RmaProxyHost) :
    (putDescs tasks host).1.signalsHost = host.signalsHost := by
  induction tasks generalizing host with
  | nil => rfl
  | cons task rest ih => exact ih _

theorem rmaProxyLaunch_waits : LaunchCarries asWait (rmaProxyLaunch (n := n)) RmaProxyHost.signalsHost := by
  intro host start launch holds
  cases launch with
  | put =>
    refine ⟨?_, fun ctx slot => ?_⟩
    · simp [rmaProxyLaunch, ncclRmaProxyPutLaunch, launchNotes, runningTotals, asWait]
    · rw [rmaProxyLaunch, ncclRmaProxyPutLaunch, putDescs_signalsHost]
      exact holds ctx slot
  | wait task =>
    obtain ⟨waits, held⟩ := cumulativeWaits_spec task.ctx task.entries holds
    refine ⟨?_, held⟩
    rw [← waits, rmaProxyLaunch, ncclRmaProxyWaitLaunch, filterMap_map, ← filterMap_eq_map]
    rfl

theorem stream_waits (launches : List (RmaLaunch n)) : Carries asWait (rmaProxyStream launches) launches :=
  rmaProxyLaunch_waits.blocks (fun _ _ => rfl) launches

/-! ### Runs -/

/-- The words that the signals add to. -/
def signalWords (state : RmaProxyState n) (rank : Fin n) : RmaWords := (state.ranks rank).signalsDev

structure Inv (programs : Fin n → List (RmaLaunch n)) (state : RmaProxyState n) : Prop where
  wire : Wire (signalWords state) state.raised state.flying
  waits : ∀ slot, waitedFor asWait (rmaProxyStream (programs slot.dst)) (programs slot.dst) (state.ranks slot.dst).pc
    (slot.ctx, slot.word) ≤ arrived state.raised state.flying slot

variable {programs : Fin n → List (RmaLaunch n)} {state next : RmaProxyState n}

theorem inv_initial : Inv programs .initial := by
  refine ⟨wire_initial, fun slot => ?_⟩
  simp [RmaProxyState.initial, RmaProxyRank.initial, waitedFor, passed, total]

theorem exec_cases {rank after : RmaProxyRank} (ran : rank.exec op = some after) :
    after.pc = rank.pc ∧ after.signalsDev = rank.signalsDev ∧
      ∀ key value, asWait op = some (key, value) → cuWaitValueGeq (rank.signalsDev key.1 key.2) value := by
  cases op with
  | start =>
    cases ran
    exact ⟨rfl, rfl, fun _ _ noted => by cases noted⟩
  | done =>
    simp only [RmaProxyRank.exec] at ran
    split at ran <;> cases ran
    exact ⟨rfl, rfl, fun _ _ noted => by cases noted⟩
  | waitSignal =>
    simp only [RmaProxyRank.exec] at ran
    split at ran
    next passes =>
      cases ran
      refine ⟨rfl, rfl, fun key value' noted => ?_⟩
      cases noted
      exact passes
    · cases ran

section
variable {after : RmaProxyRank}

theorem signalWords_update (ranks : next.ranks = update state.ranks self after) :
    signalWords next = update (signalWords state) self after.signalsDev := by
  have updated := comp_update RmaProxyRank.signalsDev state.ranks self after
  rw [← ranks] at updated
  exact updated

variable (inv : Inv programs state)
include inv

/-- An event of a rank by which no signal arrives. -/
theorem Inv.update (ranks : next.ranks = update state.ranks self after)
    (signals : after.signalsDev = (state.ranks self).signalsDev)
    (wire : Wire (signalWords state) next.raised next.flying)
    (same : ∀ slot, arrived next.raised next.flying slot = arrived state.raised state.flying slot)
    (waits : ∀ slot, slot.dst = self → waitedFor asWait (rmaProxyStream (programs self)) (programs self) after.pc
      (slot.ctx, slot.word) ≤ arrived state.raised state.flying slot) : Inv programs next := by
  have kept : signalWords next = signalWords state := by
    rw [signalWords_update ranks, signals]
    exact update_eq_self self _
  refine ⟨kept ▸ wire, fun slot => ?_⟩
  rw [ranks, same]
  by_cases mine : slot.dst = self
  · rw [mine, update_self]
    exact waits slot mine
  · rw [update_of_ne mine]
    exact inv.waits slot

theorem Inv.stream (taken : rmaProxyStep programs state (.stream self) = some next) : Inv programs next := by
  obtain ⟨op, here, rest⟩ := Option.bind_eq_some_iff.mp taken
  obtain ⟨after, ran, moved⟩ := Option.bind_eq_some_iff.mp rest
  obtain ⟨pc, signals, passes⟩ := exec_cases ran
  cases moved
  refine inv.update rfl signals inv.wire (fun _ => rfl) ?_
  rintro slot rfl
  rw [pc]
  refine waitedFor_step (stream_waits _) here (inv.waits slot) fun value noted => ?_
  rw [← inv.wire.words]
  exact passes _ value noted

theorem Inv.issue (taken : rmaProxyStep programs state (.issue self ctx peer) = some next) : Inv programs next := by
  obtain ⟨desc, -, rest⟩ := Option.bind_eq_some_iff.mp taken
  obtain ⟨-, -, moved⟩ := Option.bind_eq_some_iff.mp rest
  cases moved
  refine inv.update rfl rfl (inv.wire.raise self desc.1) (arrived_raiseSignal self desc.1) ?_
  rintro slot rfl
  exact inv.waits slot

theorem Inv.complete (taken : rmaProxyStep programs state (.complete self ctx peer) = some next) :
    Inv programs next := by
  obtain ⟨-, -, rest⟩ := Option.bind_eq_some_iff.mp taken
  obtain ⟨desc, -, moved⟩ := Option.bind_eq_some_iff.mp rest
  cases moved
  refine inv.update rfl rfl inv.wire (fun _ => rfl) ?_
  rintro slot rfl
  exact inv.waits slot

/-- A signal that arrives adds to its word. -/
theorem Inv.land (taken : rmaProxyStep programs state (.land i) = some next) : Inv programs next := by
  obtain ⟨landed, here, moved⟩ := Option.bind_eq_some_iff.mp taken
  cases moved
  refine ⟨?_, fun slot => ?_⟩
  · rw [signalWords_update rfl]
    exact inv.wire.land here
  · rw [inv.wire.arrived_land here]
    have waits := le_trans (inv.waits slot) (Nat.le_add_right _ (if slot = landed then 1 else 0))
    by_cases mine : slot.dst = landed.dst
    · rw [mine] at waits ⊢
      simpa using waits
    · simpa [update_of_ne mine] using waits

end

theorem Inv.step (inv : Inv programs state) (taken : rmaProxyStep programs state event = some next) :
    Inv programs next := by
  cases event with
  | stream => exact inv.stream taken
  | issue => exact inv.issue taken
  | complete => exact inv.complete taken
  | land => exact inv.land taken

theorem run_inv (run : rmaProxyRun programs events = some state) : Inv programs state :=
  foldlM_invariant run inv_initial fun inv taken => inv.step taken

/-- A rank has not waited for more signals than were raised. -/
theorem awaited_le_raised (run : rmaProxyRun programs events = some state)
    (executed : ((rmaProxyBlocks (programs rank) .initial).take m).flatten.length ≤ (state.ranks rank).pc) (ctx : Nat)
    (peer : Fin n) (signalIdx : Nat) :
    awaited ((programs rank).take m) ctx peer signalIdx ≤ state.raised.count ⟨ctx, signalIdx, peer, rank⟩ := by
  have first : Carries asWait ((rmaProxyBlocks (programs rank) .initial).take m).flatten ((programs rank).take m) := by
    rw [rmaProxyBlocks, ← launchBlocks_take]
    exact rmaProxyLaunch_waits.blocks (fun _ _ => rfl) _
  calc awaited ((programs rank).take m) ctx peer signalIdx
      ≤ waitedFor asWait _ (programs rank) (state.ranks rank).pc (ctx, ncclRmaSignalSlot n signalIdx peer) :=
        awaited_le_waitedFor first ( take_prefix m _).flatten executed ctx peer signalIdx
    _ ≤ arrived state.raised state.flying ⟨ctx, signalIdx, peer, rank⟩ :=
      (run_inv run).waits ⟨ctx, signalIdx, peer, rank⟩
    _ ≤ _ := arrived_le _ _ _

end NcclCore.RmaProxyProofs
