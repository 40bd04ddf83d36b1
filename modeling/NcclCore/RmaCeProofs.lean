import Mathlib.Data.Nat.ModEq
import NcclCore.RmaWaits
import NcclCore.Lib.Runs

/-! Outside of a graph no WaitSignal on the copy engine completes on too few
signals. The copies of a round read sequence numbers that were staged for them, so
the word of a signal is the number of signals raised; and a wait passes only when
that number has reached what all waits so far asked for. -/
namespace NcclCore

/-- Whether an operation raises a signal. -/
def RmaCeOp.raises (slot : RmaSlot n) : RmaCeOp n → Bool
  | .writeSignal ctx _ peer word => ctx = slot.ctx ∧ peer = slot.dst ∧ word = slot.word
  | _ => false

/-- How often a signal was raised by the copies executed so far. -/
def rmaCeRaised (programs : Fin n → List (RmaLaunch n)) (state : RmaCeState n) (slot : RmaSlot n) : Nat :=
  ((rmaCeStream slot.src (programs slot.src)).take (state slot.src).pc).countP (RmaCeOp.raises slot)

namespace RmaCeProofs
open Lib RmaWaits List
variable {n : Nat} (rank : Fin n)

/-! ### The waits of a stream -/

def asWait : RmaCeOp n → Option ((Nat × Nat) × UInt64)
  | .waitSignal ctx slot value => some ((ctx, slot), value)
  | _ => none

variable {rank} in
theorem putRound_signal (signals : task.signalMode = true) (rest : List (RmaPut n)) (k : Nat) (host : RmaCeHost) :
    putRound rank (task :: rest) k host =
      let slot := ncclRmaSignalSlot n task.signalIdx task.peer
      let seq := host.signalOpSeqs task.ctx slot + 1
      let later := putRound rank rest (k + 1) { host with signalOpSeqs := host.signalOpSeqs.set task.ctx slot seq }
      (later.1, .stage task.ctx k seq :: later.2.1,
        .writeSignal task.ctx k task.peer (ncclRmaSignalSlot n task.signalIdx rank) :: later.2.2) := by
  rw [putRound, if_pos signals]

variable {rank} in
theorem putRound_plain (plain : ¬ task.signalMode = true) (rest : List (RmaPut n)) (k : Nat) (host : RmaCeHost) :
    putRound rank (task :: rest) k host = putRound rank rest k host := by
  rw [putRound, if_neg plain]

/-- A round waits for nothing. -/
theorem putRound_waits (tasks : List (RmaPut n)) (k : Nat) (host : RmaCeHost) :
    (putRound rank tasks k host).2.1.filterMap asWait = [] ∧ (putRound rank tasks k host).2.2.filterMap asWait = [] ∧
      (putRound rank tasks k host).1.signalsHost = host.signalsHost := by
  induction tasks generalizing k host with
  | nil => exact ⟨rfl, rfl, rfl⟩
  | cons task rest ih =>
    by_cases signals : task.signalMode = true
    · rw [putRound_signal signals]
      exact ih (k + 1) _
    · rw [putRound_plain signals]
      exact ih k host

theorem putRounds_waits (tasks : List (RmaPut n)) (rounds k : Nat) (host : RmaCeHost) :
    (putRounds rank tasks rounds k host).2.filterMap asWait = [] ∧
      (putRounds rank tasks rounds k host).1.signalsHost = host.signalsHost := by
  induction rounds generalizing k host with
  | zero => exact ⟨rfl, rfl⟩
  | succ rounds ih =>
    obtain ⟨stages, signals, kept⟩ := putRound_waits rank (roundTasks rank tasks k) 0 host
    obtain ⟨later, keptLater⟩ := ih (k + 1) (putRound rank (roundTasks rank tasks k) 0 host).1
    refine ⟨?_, keptLater.trans kept⟩
    simp [putRounds, stages, signals, later]

theorem rmaCeLaunch_waits : LaunchCarries asWait (rmaCeLaunch rank) RmaCeHost.signalsHost := by
  intro host start launch holds
  cases launch with
  | put tasks =>
    obtain ⟨none, kept⟩ := putRounds_waits rank tasks tasks.length 0 host
    refine ⟨none, ?_⟩
    intro ctx slot
    rw [rmaCeLaunch, ncclRmaCePutLaunchNonPersist, kept]
    exact holds ctx slot
  | wait task =>
    obtain ⟨waits, held⟩ := cumulativeWaits_spec task.ctx task.entries holds
    refine ⟨?_, held⟩
    rw [← waits, rmaCeLaunch, ncclRmaCeWaitLaunchNonPersist, filterMap_map, ← filterMap_eq_map]
    rfl

theorem holds_initial : Holds RmaCeHost.initial.signalsHost fun _ => 0 := fun _ _ => rfl

theorem stream_waits (launches : List (RmaLaunch n)) :
    Carries asWait (rmaCeStream rank launches) launches := (rmaCeLaunch_waits rank).blocks holds_initial launches

/-! ### The sequence numbers of a stream -/

/-- The stage words after some operations. -/
def stageAll (staged : RmaWords) (ops : List (RmaCeOp n)) : RmaWords :=
  ops.foldl (fun staged op =>
    match op with
    | .stage ctx index value => staged.set ctx index value
    | _ => staged) staged

/-- How often the signals were raised after some operations. -/
def sentAfter (sent : RmaSlot n → Nat) (ops : List (RmaCeOp n)) (slot : RmaSlot n) : Nat :=
  sent slot + ops.countP (RmaCeOp.raises slot)

/-- From the given stage words and numbers of signals on, every copy of the operations
delivers the number of its signal. -/
def Delivers : RmaWords → (RmaSlot n → Nat) → List (RmaCeOp n) → Prop
  | _, _, [] => True
  | staged, sent, .stage ctx index value :: rest => Delivers (staged.set ctx index value) sent rest
  | staged, sent, .writeSignal ctx index peer word :: rest =>
    ∃ signalIdx, word = ncclRmaSignalSlot n signalIdx rank ∧
      staged ctx index = UInt64.ofNat (sent ⟨ctx, signalIdx, rank, peer⟩ + 1) ∧
      Delivers staged (sentAfter sent [.writeSignal ctx index peer word]) rest
  | staged, sent, .waitSignal _ _ _ :: rest => Delivers staged sent rest

section
variable (sent : RmaSlot n → Nat)

theorem sentAfter_append (ops more : List (RmaCeOp n)) :
    sentAfter sent (ops ++ more) = sentAfter (sentAfter sent ops) more := by
  funext slot
  simp [sentAfter, add_assoc]

theorem sentAfter_cons (op : RmaCeOp n) (ops : List (RmaCeOp n)) :
    sentAfter sent (op :: ops) = sentAfter (sentAfter sent [op]) ops := sentAfter_append sent [op] ops

end

theorem raises_writeSignal (ctx index signalIdx : Nat) (peer : Fin n) (slot : RmaSlot n) :
    RmaCeOp.raises slot (.writeSignal ctx index peer (ncclRmaSignalSlot n signalIdx rank)) = true ↔
      slot = ⟨ctx, signalIdx, rank, peer⟩ := by
  simp only [RmaCeOp.raises, RmaSlot.word, decide_eq_true_eq, signalSlot_eq_iff, RmaSlot.ext_iff]
  grind

theorem sentAfter_of_ne (differs : slot ≠ ⟨ctx, signalIdx, rank, peer⟩) :
    sentAfter sent [.writeSignal ctx index peer (ncclRmaSignalSlot n signalIdx rank)] slot = sent slot := by
  rw [sentAfter, countP_singleton, if_neg (mt (raises_writeSignal ..).mp differs), add_zero]

theorem delivers_append (ops more : List (RmaCeOp n)) (staged : RmaWords) (sent : RmaSlot n → Nat) :
    Delivers rank staged sent (ops ++ more) ↔
      Delivers rank staged sent ops ∧ Delivers rank (stageAll staged ops) (sentAfter sent ops) more := by
  induction ops generalizing staged sent with
  | nil => exact (iff_of_eq (true_and _)).symm
  | cons op rest ih =>
    rw [sentAfter_cons]
    cases op with
    | writeSignal =>
      simp only [cons_append, Delivers, ih, exists_and_right, ← and_assoc]
      rfl
    | _ =>
      exact ih _ _

/-- The counters of the host are the numbers of the signals raised. -/
def Counts (host : RmaCeHost) (sent : RmaSlot n → Nat) : Prop :=
  ∀ ctx signalIdx (peer : Fin n),
    host.signalOpSeqs ctx (ncclRmaSignalSlot n signalIdx peer) = UInt64.ofNat (sent ⟨ctx, signalIdx, rank, peer⟩)

/-- The peer that an operation copies to. -/
def target : RmaCeOp n → Option (Fin n)
  | .writeSignal _ _ peer _ => some peer
  | _ => none

/-- What holds of the stage writes and the copies of a round. -/
structure RoundOk (tasks : List (RmaPut n)) (k : Nat) (sent : RmaSlot n → Nat) (staged : RmaWords)
    (last : RmaCeHost) (stages signals : List (RmaCeOp n)) : Prop where
  writes : ∀ op ∈ stages, target op = none
  earlier : ∀ ctx index, index < k → stageAll staged stages ctx index = staged ctx index
  copies : ∀ op ∈ signals, ∃ ctx index signalIdx, ∃ peer ∈ tasks.map (·.peer),
    op = .writeSignal ctx index peer (ncclRmaSignalSlot n signalIdx rank) ∧
      stageAll staged stages ctx index = UInt64.ofNat (sent ⟨ctx, signalIdx, rank, peer⟩ + 1)
  apart : signals.Pairwise fun op other => target op ≠ target other
  counts : Counts rank last (sentAfter sent signals)

variable {rank} in
theorem Counts.signal (counts : Counts rank host sent) (task : RmaPut n) (k : Nat) :
    let slot := ncclRmaSignalSlot n task.signalIdx task.peer
    let seq := host.signalOpSeqs task.ctx slot + 1
    Counts rank { host with signalOpSeqs := host.signalOpSeqs.set task.ctx slot seq }
      (sentAfter sent [.writeSignal task.ctx k task.peer (ncclRmaSignalSlot n task.signalIdx rank)]) := by
  intro slot seq ctx signalIdx peer
  have counted := raises_writeSignal rank task.ctx k task.signalIdx task.peer ⟨ctx, signalIdx, rank, peer⟩
  simp only [slot, seq, RmaWords.set_apply, signalSlot_eq_iff, sentAfter, countP_singleton]
  by_cases here : (⟨ctx, signalIdx, rank, peer⟩ : RmaSlot n) = ⟨task.ctx, task.signalIdx, rank, task.peer⟩
  · rw [if_pos (counted.mpr here)]
    obtain ⟨rfl, rfl, -, rfl⟩ := RmaSlot.mk.inj here
    rw [if_pos ⟨rfl, rfl, rfl⟩, counts, UInt64.ofNat_add]
    rfl
  · rw [if_neg (mt counted.mp here), if_neg, counts, add_zero]
    rintro ⟨rfl, rfl, rfl⟩
    exact here rfl

theorem putRound_ok (tasks : List (RmaPut n)) (apart : (tasks.map (·.peer)).Nodup) (k : Nat)
    (counts : Counts rank host sent) (staged : RmaWords) :
    RoundOk rank tasks k sent staged (putRound rank tasks k host).1 (putRound rank tasks k host).2.1
      (putRound rank tasks k host).2.2 := by
  induction tasks generalizing k host sent staged with
  | nil =>
    exact ⟨nofun, fun _ _ _ => rfl, nofun, .nil, counts⟩
  | cons task rest ih =>
    rw [map_cons, nodup_cons] at apart
    by_cases signals : task.signalMode = true
    · rw [putRound_signal signals]
      have later := ih apart.2 (k + 1) (counts.signal task k)
        (staged.set task.ctx k (host.signalOpSeqs task.ctx (ncclRmaSignalSlot n task.signalIdx task.peer) + 1))
      refine ⟨forall_mem_cons.mpr ⟨rfl, later.writes⟩, fun ctx index less => ?_,
        forall_mem_cons.mpr ⟨?_, fun op inRest => ?_⟩, ?_, ?_⟩
      · refine (later.earlier ctx index (by omega)).trans ?_
        rw [RmaWords.set_apply, if_neg (by omega)]
      · refine ⟨_, _, task.signalIdx, task.peer, .head _, rfl, ?_⟩
        refine (later.earlier task.ctx k (by omega)).trans ?_
        rw [RmaWords.set_apply, if_pos ⟨rfl, rfl⟩, counts, UInt64.ofNat_add]
        rfl
      · obtain ⟨ctx, index, signalIdx, peer, among, is, value⟩ := later.copies op inRest
        refine ⟨ctx, index, signalIdx, peer, .tail _ among, is, value.trans ?_⟩
        rw [sentAfter_of_ne]
        intro same
        exact apart.1 ((RmaSlot.mk.inj same).2.2.2 ▸ among)
      · refine pairwise_cons.mpr ⟨fun op inRest same => ?_, later.apart⟩
        obtain ⟨ctx, index, signalIdx, peer, among, rfl, -⟩ := later.copies op inRest
        exact apart.1 (Option.some.inj same ▸ among)
      · rw [sentAfter_cons]
        exact later.counts
    · rw [putRound_plain signals]
      have later := ih apart.2 k counts staged
      refine ⟨later.writes, later.earlier, fun op member => ?_, later.apart, later.counts⟩
      obtain ⟨ctx, index, signalIdx, peer, among, rest⟩ := later.copies op member
      exact ⟨ctx, index, signalIdx, peer, .tail _ among, rest⟩

/-- Without copies nothing is delivered. -/
theorem delivers_silent (silent : ∀ op ∈ ops, target op = none) (staged : RmaWords) (sent : RmaSlot n → Nat) :
    Delivers rank staged sent ops ∧ sentAfter sent ops = sent := by
  induction ops generalizing staged with
  | nil => exact ⟨trivial, rfl⟩
  | cons op rest ih =>
    obtain ⟨here, later⟩ := forall_mem_cons.mp silent
    cases op with
    | writeSignal => cases here
    | _ =>
      exact ih later _

theorem delivers_copies (copies : ∀ op ∈ signals, ∃ ctx index signalIdx peer,
      op = .writeSignal ctx index peer (ncclRmaSignalSlot n signalIdx rank) ∧
        staged ctx index = UInt64.ofNat (sent ⟨ctx, signalIdx, rank, peer⟩ + 1))
    (apart : signals.Pairwise fun op other => target op ≠ target other) : Delivers rank staged sent signals := by
  induction signals generalizing sent with
  | nil => trivial
  | cons op rest ih =>
    obtain ⟨ctx, index, signalIdx, peer, rfl, value⟩ := copies op (.head _)
    obtain ⟨others, apartRest⟩ := pairwise_cons.mp apart
    refine ⟨signalIdx, rfl, value, ih (fun other inRest => ?_) apartRest⟩
    obtain ⟨ctx', index', signalIdx', peer', rfl, value'⟩ := copies other (.tail _ inRest)
    refine ⟨ctx', index', signalIdx', peer', rfl, value'.trans ?_⟩
    rw [sentAfter_of_ne]
    intro same
    exact others _ inRest (congrArg some (RmaSlot.mk.inj same).2.2.2.symm)

variable {rank} in
theorem RoundOk.delivers (ok : RoundOk rank tasks k sent staged last stages signals) :
    Delivers rank staged sent (stages ++ signals) ∧ Counts rank last (sentAfter sent (stages ++ signals)) := by
  obtain ⟨written, silent⟩ := delivers_silent rank ok.writes staged sent
  rw [delivers_append, sentAfter_append, silent]
  refine ⟨⟨written, delivers_copies rank (fun op member => ?_) ok.apart⟩, ok.counts⟩
  obtain ⟨ctx, index, signalIdx, peer, -, is, value⟩ := ok.copies op member
  exact ⟨ctx, index, signalIdx, peer, is, value⟩

theorem lsaPeer_inj (boundR : r < n) (boundS : s < n) (same : lsaPeer rank r = lsaPeer rank s) : r = s := by
  have congruent := congrArg Fin.val same
  exact (Nat.ModEq.add_left_cancel' _ congruent).eq_of_lt_of_lt boundR boundS

theorem cyclicPeers_nodup : (cyclicPeers rank).Nodup := by
  have first : lsaPeer rank 0 = rank := Fin.ext (Nat.mod_eq_of_lt rank.isLt)
  refine List.Nodup.append ?_ (nodup_singleton _) ?_
  · refine List.Nodup.map_on (fun r inR s inS same => ?_) nodup_range
    have boundR := mem_range.mp inR
    have boundS := mem_range.mp inS
    exact Nat.succ_injective (lsaPeer_inj rank (by omega) (by omega) same)
  · intro peer inOthers isSelf
    obtain ⟨r, inR, rfl⟩ := mem_map.mp inOthers
    have boundR := mem_range.mp inR
    have same := (mem_singleton.mp isSelf).trans first.symm
    exact absurd (lsaPeer_inj rank (by omega) (by omega) same) (Nat.succ_ne_zero r)

/-- A round has at most one task for each peer. -/
theorem roundTasks_apart (tasks : List (RmaPut n)) (k : Nat) : ((roundTasks rank tasks k).map (·.peer)).Nodup := by
  refine (cyclicPeers_nodup rank).sublist ?_
  rw [roundTasks]
  induction cyclicPeers rank with
  | nil => exact .slnil
  | cons peer rest ih =>
    rw [filterMap_cons]
    cases head : (tasks.filter (·.peer = peer))[k]? with
    | none => exact ih.cons _
    | some task =>
      have aimed : task.peer = peer := by
        simpa using (mem_filter.mp (mem_of_getElem? head)).2
      rw [map_cons, aimed]
      exact ih.cons_cons _

theorem putRounds_delivers (tasks : List (RmaPut n)) (rounds k : Nat) (counts : Counts rank host sent)
    (staged : RmaWords) :
    Delivers rank staged sent (putRounds rank tasks rounds k host).2 ∧
      Counts rank (putRounds rank tasks rounds k host).1 (sentAfter sent (putRounds rank tasks rounds k host).2) := by
  induction rounds generalizing k host sent staged with
  | zero => exact ⟨trivial, counts⟩
  | succ rounds ih =>
    obtain ⟨here, counted⟩ :=
      (putRound_ok rank (roundTasks rank tasks k) (roundTasks_apart rank tasks k) 0 counts staged).delivers
    obtain ⟨later, countedLater⟩ := ih (k + 1) counted (stageAll staged _)
    simp only [putRounds, delivers_append, sentAfter_append] at here later countedLater ⊢
    exact ⟨⟨here, later⟩, countedLater⟩

theorem rmaCeLaunch_delivers (counts : Counts rank host sent) (launch : RmaLaunch n) (staged : RmaWords) :
    Delivers rank staged sent (rmaCeLaunch rank host launch).2 ∧
      Counts rank (rmaCeLaunch rank host launch).1 (sentAfter sent (rmaCeLaunch rank host launch).2) := by
  cases launch with
  | put tasks => exact putRounds_delivers rank tasks _ 0 counts staged
  | wait task =>
    have waits : ∀ op ∈ (rmaCeLaunch rank host (.wait task)).2, target op = none := by
      intro op member
      obtain ⟨wait, -, rfl⟩ := mem_map.mp member
      rfl
    obtain ⟨delivers, silent⟩ := delivers_silent rank waits staged sent
    refine ⟨delivers, ?_⟩
    rw [silent]
    exact counts

theorem rmaCeBlocks_delivers (launches : List (RmaLaunch n)) (counts : Counts rank host sent) (staged : RmaWords) :
    Delivers rank staged sent (rmaCeBlocks rank launches host).flatten := by
  induction launches generalizing host sent staged with
  | nil => trivial
  | cons launch rest ih =>
    obtain ⟨here, counted⟩ := rmaCeLaunch_delivers rank counts launch staged
    rw [rmaCeBlocks, launchBlocks, flatten_cons, delivers_append]
    exact ⟨here, ih counted _⟩

/-! ### Runs -/

variable {programs : Fin n → List (RmaLaunch n)} {state next : RmaCeState n} {rank : Fin n} {op : RmaCeOp n}

/-- What the step of a stream does. -/
structure Executes (state : RmaCeState n) (rank : Fin n) (op : RmaCeOp n) (next : RmaCeState n) : Prop where
  pc : ∀ other, (next other).pc = (state other).pc + if other = rank then 1 else 0
  staged : ∀ other, (next other).signalOpSeqsDev =
    if other = rank then stageAll (state other).signalOpSeqsDev [op] else (state other).signalOpSeqsDev
  signals : ∀ other ctx word, (next other).signalsDev ctx word =
    match op with
    | .writeSignal ctx' index peer word' =>
      if other = peer ∧ ctx = ctx' ∧ word = word' then (state rank).signalOpSeqsDev ctx' index
      else (state other).signalsDev ctx word
    | _ => (state other).signalsDev ctx word
  waits : ∀ ctx word value, op = .waitSignal ctx word value → cuWaitValueGeq ((state rank).signalsDev ctx word) value

theorem step_executes (taken : rmaCeStep programs state rank = some next) :
    ∃ op, (rmaCeStream rank (programs rank))[(state rank).pc]? = some op ∧ Executes state rank op next := by
  obtain ⟨op, here, rest⟩ := Option.bind_eq_some_iff.mp taken
  obtain ⟨after, ran, moved⟩ := Option.bind_eq_some_iff.mp rest
  cases moved
  refine ⟨op, here, ?_⟩
  cases op with
  | stage =>
    cases ran
    refine ⟨fun other => ?_, fun other => ?_, fun other ctx' word => ?_, fun _ _ _ is => by cases is⟩ <;>
      by_cases same : other = rank <;> simp [same, stageAll]
  | writeSignal ctx index peer word =>
    cases ran
    refine ⟨fun other => ?_, fun other => ?_, fun other ctx' word' => ?_, fun _ _ _ is => by cases is⟩
    · by_cases same : other = rank <;> by_cases target : other = peer <;> simp_all
    · by_cases same : other = rank <;> by_cases target : other = peer <;> simp_all [stageAll]
    · by_cases same : other = rank <;> by_cases target : other = peer <;> simp_all [RmaWords.set_apply]
  | waitSignal =>
    simp only [RmaCeState.exec] at ran
    split at ran
    next passes =>
      cases ran
      refine ⟨fun other => ?_, fun other => ?_, fun other ctx' word' => ?_, fun _ _ _ is => ?_⟩
      · by_cases same : other = rank <;> simp [same]
      · by_cases same : other = rank <;> simp [same, stageAll]
      · by_cases same : other = rank <;> simp [same]
      · cases is
        exact passes
    · cases ran

/-- The invariant of runs. -/
structure Inv (programs : Fin n → List (RmaLaunch n)) (state : RmaCeState n) : Prop where
  delivers : ∀ rank, Delivers rank (state rank).signalOpSeqsDev
    (sentAfter (fun _ => 0) ((rmaCeStream rank (programs rank)).take (state rank).pc))
    ((rmaCeStream rank (programs rank)).drop (state rank).pc)
  words : ∀ slot, (state slot.dst).signalsDev slot.ctx slot.word = UInt64.ofNat (rmaCeRaised programs state slot)
  waits : ∀ slot, waitedFor asWait (rmaCeStream slot.dst (programs slot.dst)) (programs slot.dst) (state slot.dst).pc
    (slot.ctx, slot.word) ≤ rmaCeRaised programs state slot

theorem inv_initial : Inv programs fun _ => .initial := by
  refine ⟨fun rank => ?_, fun slot => ?_, fun slot => ?_⟩
  · exact rmaCeBlocks_delivers rank _ (fun _ _ _ => rfl) _
  · simp [rmaCeRaised, RmaCeRank.initial]
  · simp [RmaCeRank.initial, waitedFor, passed, total]

theorem raised_of_executes (here : (rmaCeStream rank (programs rank))[(state rank).pc]? = some op)
    (executes : Executes state rank op next) (slot : RmaSlot n) :
    rmaCeRaised programs next slot =
      rmaCeRaised programs state slot + if slot.src = rank ∧ op.raises slot then 1 else 0 := by
  rw [rmaCeRaised, rmaCeRaised, executes.pc]
  by_cases mine : slot.src = rank
  · subst mine
    obtain ⟨bound, found⟩ := List.getElem?_eq_some_iff.mp here
    simp [take_succ_eq_append_getElem bound, found]
  · simp [mine]

section
variable (inv : Inv programs state) (here : (rmaCeStream rank (programs rank))[(state rank).pc]? = some op)
  (executes : Executes state rank op next)
include inv here executes

theorem Inv.delivers_step (other : Fin n) :
    Delivers other (next other).signalOpSeqsDev
      (sentAfter (fun _ => 0) ((rmaCeStream other (programs other)).take (next other).pc))
      ((rmaCeStream other (programs other)).drop (next other).pc) := by
  rw [executes.pc, executes.staged]
  by_cases mine : other = rank
  · subst mine
    obtain ⟨bound, found⟩ := List.getElem?_eq_some_iff.mp here
    have before := inv.delivers other
    rw [← getElem_cons_drop bound, found, ← singleton_append, delivers_append, ← sentAfter_append] at before
    rw [if_pos rfl, if_pos rfl, take_succ_eq_append_getElem bound, found]
    exact before.2
  · rw [if_neg mine, if_neg mine]
    exact inv.delivers other

theorem Inv.words_step (slot : RmaSlot n) :
    (next slot.dst).signalsDev slot.ctx slot.word = UInt64.ofNat (rmaCeRaised programs next slot) := by
  rw [executes.signals, raised_of_executes here executes]
  cases op with
  | stage | waitSignal => simpa [RmaCeOp.raises] using inv.words slot
  | writeSignal ctx index peer word =>
    obtain ⟨bound, found⟩ := List.getElem?_eq_some_iff.mp here
    have delivers := inv.delivers rank
    rw [← getElem_cons_drop bound, found] at delivers
    obtain ⟨signalIdx, rfl, value, -⟩ := delivers
    have counted := raises_writeSignal rank ctx index signalIdx peer slot
    by_cases same : slot = ⟨ctx, signalIdx, rank, peer⟩
    · rw [if_pos ⟨congrArg RmaSlot.src same, counted.mpr same⟩]
      subst same
      dsimp only
      rw [if_pos ⟨rfl, rfl, rfl⟩, value]
      simp [sentAfter, rmaCeRaised]
    · rw [if_neg fun both => same (counted.mp both.2)]
      dsimp only
      rw [if_neg, inv.words, add_zero]
      rintro ⟨dst, sameCtx, word⟩
      exact same (RmaSlot.eq_of_word dst sameCtx word)

theorem Inv.waits_step (slot : RmaSlot n) :
    waitedFor asWait (rmaCeStream slot.dst (programs slot.dst)) (programs slot.dst) (next slot.dst).pc
      (slot.ctx, slot.word) ≤ rmaCeRaised programs next slot := by
  have grows : rmaCeRaised programs state slot ≤ rmaCeRaised programs next slot := by
    rw [raised_of_executes here executes]
    exact le_self_add
  refine le_trans ?_ grows
  rw [executes.pc]
  by_cases mine : slot.dst = rank
  · subst mine
    rw [if_pos rfl]
    refine waitedFor_step (stream_waits slot.dst _) here (inv.waits slot) fun value noted => ?_
    rw [← inv.words]
    refine executes.waits _ _ _ ?_
    cases op <;> cases noted
    rfl
  · rw [if_neg mine]
    exact inv.waits slot

end

theorem Inv.step (inv : Inv programs state) (taken : rmaCeStep programs state rank = some next) : Inv programs next := by
  obtain ⟨op, here, executes⟩ := step_executes taken
  exact ⟨inv.delivers_step here executes, inv.words_step here executes, inv.waits_step here executes⟩

theorem run_inv (run : rmaCeRun programs ranks = some state) : Inv programs state :=
  foldlM_invariant run inv_initial fun inv taken => inv.step taken

/-- A rank has not waited for more signals than were raised. -/
theorem awaited_le_raised (run : rmaCeRun programs ranks = some state)
    (executed : ((rmaCeBlocks rank (programs rank) .initial).take m).flatten.length ≤ (state rank).pc) (ctx : Nat)
    (peer : Fin n) (signalIdx : Nat) :
    awaited ((programs rank).take m) ctx peer signalIdx ≤ rmaCeRaised programs state ⟨ctx, signalIdx, peer, rank⟩ := by
  have first : Carries asWait ((rmaCeBlocks rank (programs rank) .initial).take m).flatten ((programs rank).take m) := by
    rw [rmaCeBlocks, ← launchBlocks_take]
    exact (rmaCeLaunch_waits rank).blocks holds_initial _
  refine le_trans (awaited_le_waitedFor first ?_ executed ctx peer signalIdx)
    ((run_inv run).waits ⟨ctx, signalIdx, peer, rank⟩)
  exact ( take_prefix m _).flatten

end NcclCore.RmaCeProofs
