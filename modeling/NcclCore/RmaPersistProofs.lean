import NcclCore.RmaProxyProofs

/-! In a graph, the proxy thread serves a WaitSignal by comparing every entry with
what was consumed before the wait. That is enough signals for all its entries when
no two of them are on one signal. -/
namespace NcclCore

/-- No two entries of a wait ask for signals of one peer and index. -/
def RmaWait.Apart (task : RmaWait n) : Prop :=
  task.entries.Pairwise fun entry other =>
    entry.peer = other.peer → entry.signalIdx = other.signalIdx → entry.nsignals.val = 0 ∨ other.nsignals.val = 0

/-- The waits of a captured program have their entries apart, and what is asked of a
signal stays below `2 ^ 64`. -/
structure RmaCaptured.Separate (program : RmaCaptured n) : Prop where
  apart : ∀ task, .wait task ∈ program.captured → task.Apart
  bounded : ∀ ctx peer signalIdx, awaited program.launches ctx peer signalIdx < 2 ^ 64

namespace RmaPersistProofs
open Lib RmaWaits RmaProxyProofs List Function Option
variable {n : Nat}

/-! ### Streams of replays -/

/-- The launches that the replays execute, with their numbers. -/
def played (program : RmaCaptured n) : List (Nat × RmaLaunch n) :=
  program.plays.filterMap fun launch => program.captured[launch]?.map (launch, ·)

/-- What is put on the stream for some of them. -/
def opsOf (launches : List (Nat × RmaLaunch n)) : List RmaPersistOp :=
  launches.flatMap fun launch => rmaPersistLaunch launch.1 launch.2

/-- What some of them wait for. -/
def notesOf (launches : List (Nat × RmaLaunch n)) : List ((Nat × Nat) × Nat) :=
  launches.flatMap fun launch => launchNotes launch.2

section
variable (program : RmaCaptured n)

theorem blocks_eq :
    program.blocks = (played program).map fun launch => rmaPersistLaunch launch.1 launch.2 := by
  simp [RmaCaptured.blocks, played, map_filterMap, comp_def]

theorem launches_eq : program.launches = (played program).map (·.2) := by
  simp [RmaCaptured.launches, played, map_filterMap]

theorem stream_eq : program.stream = opsOf (played program) := by
  rw [RmaCaptured.stream, blocks_eq, opsOf, flatMap_def]

end

variable {program : RmaCaptured n}

theorem captured_of_played (member : launch ∈ played program) : program.captured[launch.1]? = some launch.2 := by
  obtain ⟨i, -, is⟩ := mem_filterMap.mp member
  obtain ⟨found, here, rfl⟩ := map_eq_some_iff.mp is
  exact here

/-- The operations for the puts of a launch. -/
def IsPutOp (program : RmaCaptured n) : RmaPersistOp → Prop
  | .start launch _ | .waitDone launch _ | .resetDone launch _ => ∃ tasks, program.captured[launch]? = some (.put tasks)

variable {launch : Nat}

theorem isPutOp_of_put (here : program.captured[launch]? = some (.put tasks))
    (member : op ∈ rmaPersistLaunch launch (.put tasks)) : IsPutOp program op := by
  rcases mem_append.mp member with starts | dones
  · obtain ⟨task, -, rfl⟩ := mem_map.mp starts
    exact ⟨tasks, here⟩
  · obtain ⟨task, -, is⟩ := mem_flatMap.mp dones
    rcases mem_pair.mp is with rfl | rfl <;> exact ⟨tasks, here⟩

/-! ### What a rank is at -/

/-- The descriptors of all waits but one are idle. -/
def IdleBut (program : RmaCaptured n) (rank : RmaPersistRank) (except : Option Nat) : Prop :=
  ∀ launch task, program.captured[launch]? = some (.wait task) → some launch ≠ except → rank.descs launch 0 = .initial

/-- Where a rank is in its stream, what its descriptors are at, and the waits that its
proxy has served. -/
inductive RankAt (program : RmaCaptured n) (rank : RmaPersistRank) : List ((Nat × Nat) × Nat) → Prop
  | idle (before rest : List (Nat × RmaLaunch n)) (ops : List RmaPersistOp) (split : played program = before ++ rest)
      (left : program.stream.drop rank.pc = ops ++ opsOf rest) (puts : ∀ op ∈ ops, IsPutOp program op)
      (descs : IdleBut program rank none) : RankAt program rank (notesOf before)
  | waiting (before rest : List (Nat × RmaLaunch n)) (launch : Nat) (task : RmaWait n)
      (split : played program = before ++ (launch, .wait task) :: rest)
      (left : program.stream.drop rank.pc = .waitDone launch 0 :: .resetDone launch 0 :: opsOf rest)
      (descs : IdleBut program rank (some launch))
      (desc : rank.descs launch 0 = ⟨1, 0, .ready⟩ ∨ rank.descs launch 0 = ⟨0, 0, .inProgress⟩) :
      RankAt program rank (notesOf before)
  | served (before rest : List (Nat × RmaLaunch n)) (launch : Nat) (task : RmaWait n)
      (split : played program = before ++ (launch, .wait task) :: rest)
      (left : program.stream.drop rank.pc = .waitDone launch 0 :: .resetDone launch 0 :: opsOf rest ∨
        program.stream.drop rank.pc = .resetDone launch 0 :: opsOf rest)
      (descs : IdleBut program rank (some launch)) (desc : rank.descs launch 0 = ⟨0, 1, .ready⟩) :
      RankAt program rank (notesOf (before ++ [(launch, .wait task)]))

variable {program : RmaCaptured n} {rank after : RmaPersistRank} {notes : List ((Nat × Nat) × Nat)}

theorem setDesc_descs (rank : RmaPersistRank) (launch task launch' task' : Nat) (desc : RmaPersistDesc) :
    (rank.setDesc launch task desc).descs launch' task' =
      if launch' = launch ∧ task' = task then desc else rank.descs launch' task' := by
  by_cases sameLaunch : launch' = launch
  · subst sameLaunch
    by_cases sameTask : task' = task <;> simp [RmaPersistRank.setDesc, sameTask]
  · simp [RmaPersistRank.setDesc, sameLaunch]

theorem notesOf_append (before rest : List (Nat × RmaLaunch n)) :
    notesOf (before ++ rest) = notesOf before ++ notesOf rest :=
  flatMap_append

/-- What a rank is at depends on its position and the descriptors of its waits. -/
theorem RankAt.congr (ok : RankAt program rank notes) (pc : after.pc = rank.pc)
    (descs : ∀ launch task, program.captured[launch]? = some (.wait task) → after.descs launch 0 = rank.descs launch 0) :
    RankAt program after notes := by
  have idle : ∀ {except}, IdleBut program rank except → IdleBut program after except :=
    fun idle launch task is other => (descs launch task is).trans (idle launch task is other)
  have current : ∀ {before rest launch task}, played program = before ++ (launch, RmaLaunch.wait task) :: rest →
      after.descs launch 0 = rank.descs launch 0 := by
    intro before rest launch task split
    exact descs launch task (captured_of_played (split ▸ mem_append_right _ (.head _)))
  cases ok with
  | idle before rest ops split left puts idles => exact .idle before rest ops split (pc ▸ left) puts (idle idles)
  | waiting before rest launch task split left idles desc =>
    exact .waiting before rest launch task split (pc ▸ left) (idle idles) (by rwa [current split])
  | served before rest launch task split left idles desc =>
    exact .served before rest launch task split (pc ▸ left) (idle idles) (by rwa [current split])

theorem RankAt.among (ok : RankAt program rank notes) : notes <+: notesOf (played program) := by
  cases ok with
  | idle before rest ops split => exact ⟨notesOf rest, by rw [split, notesOf_append]⟩
  | waiting before rest launch task split => exact ⟨_, by rw [split, notesOf_append]⟩
  | served before rest launch task split =>
    exact ⟨notesOf rest, by rw [split, ← notesOf_append, append_assoc, singleton_append]⟩

/-! ### The stream -/

/-- A rank whose stream has executed one more operation. -/
def stepped (rank : RmaPersistRank) : RmaPersistRank := { rank with pc := rank.pc + 1 }

theorem drop_succ {pc : Nat} {stream rest : List RmaPersistOp} {first : RmaPersistOp} (here : stream[pc]? = some op)
    (left : stream.drop pc = first :: rest) : first = op ∧ stream.drop (pc + 1) = rest := by
  obtain ⟨bound, rfl⟩ := List.getElem?_eq_some_iff.mp here
  rw [← getElem_cons_drop bound] at left
  obtain ⟨same, rfl⟩ := cons.inj left
  exact ⟨same.symm, rfl⟩

/-- An operation writes to the descriptor it names, or waits. -/
theorem exec_cases (ran : rank.exec op = some after) : after = rank ∨ ∃ launch task desc,
    after = rank.setDesc launch task desc ∧
      ∀ {n} {program : RmaCaptured n}, IsPutOp program op → ∃ tasks, program.captured[launch]? = some (.put tasks) := by
  cases op with
  | start launch task | resetDone launch task =>
    cases ran
    exact .inr ⟨launch, task, _, rfl, id⟩
  | waitDone =>
    simp only [RmaPersistRank.exec] at ran
    split at ran <;> cases ran
    exact .inl rfl

theorem exec_same (ran : rank.exec op = some after) :
    after.pc = rank.pc ∧ after.cpuAccessSignals = rank.cpuAccessSignals ∧
    after.cpuAccessSignalsHost = rank.cpuAccessSignalsHost := by
  rcases exec_cases ran with rfl | ⟨launch, task, desc, rfl, -⟩ <;> exact ⟨rfl, rfl, rfl⟩

variable {task : RmaWait n}

theorem exec_put_descs (ran : rank.exec op = some after) (put : IsPutOp program op)
    (wait : program.captured[launch]? = some (.wait task)) : after.descs launch 0 = rank.descs launch 0 := by
  rcases exec_cases ran with rfl | ⟨other, _, desc, rfl, isPut⟩
  · rfl
  · obtain ⟨tasks, is⟩ := isPut put
    rw [setDesc_descs, if_neg]
    rintro ⟨rfl, -⟩
    rw [wait] at is
    cases is

section
variable (here : program.stream[rank.pc]? = some op) (ran : rank.exec op = some after)
include here ran

theorem idle_exec (before rest : List (Nat × RmaLaunch n)) (ops : List RmaPersistOp)
    (split : played program = before ++ rest)
    (left : program.stream.drop rank.pc = ops ++ opsOf rest) (puts : ∀ op ∈ ops, IsPutOp program op)
    (descs : IdleBut program rank none) :
    RankAt program (stepped after) (notesOf before) := by
  cases ops with
  | cons first ops =>
    obtain ⟨rfl, left⟩ := drop_succ here left
    refine .idle before rest ops split ?_ (fun op member => puts op (.tail _ member)) ?_
    · rw [stepped, (exec_same ran).1]
      exact left
    · intro launch task isWait other
      exact (exec_put_descs ran (puts _ (.head _)) isWait).trans (descs launch task isWait other)
  | nil =>
    cases rest with
    | nil =>
      rw [getElem?_eq_none (drop_eq_nil_iff.mp left)] at here
      cases here
    | cons launch rest =>
      obtain ⟨i, launch⟩ := launch
      have is : program.captured[i]? = some launch := captured_of_played (split ▸ mem_append_right _ (.head _))
      cases launch with
      | put tasks =>
        -- the operations of the launch are next, if it has any
        have same : notesOf before = notesOf (before ++ [(i, .put tasks)]) := by
          rw [notesOf_append]
          exact (append_nil _).symm
        rw [same]
        exact idle_exec _ rest _ (by rw [split, append_assoc, singleton_append]) left
          (fun op member => isPutOp_of_put is member) descs
      | wait task =>
        obtain ⟨rfl, left⟩ := drop_succ here left
        cases ran
        refine .waiting before rest i task split left ?_ (.inl ?_)
        · intro other task' isWait differs
          change (rank.setDesc i 0 _).descs other 0 = _
          rw [setDesc_descs, if_neg fun same => differs (congrArg some same.1)]
          exact descs other task' isWait nofun
        · change (rank.setDesc i 0 _).descs i 0 = _
          rw [setDesc_descs, if_pos ⟨rfl, rfl⟩, descs i task is nofun]
          rfl

theorem RankAt.exec (ok : RankAt program rank notes) : RankAt program (stepped after) notes := by
  cases ok with
  | idle before rest ops split left puts descs => exact idle_exec here ran before rest ops split left puts descs
  | waiting before rest launch task split left descs desc =>
    obtain ⟨rfl, -⟩ := drop_succ here left
    rcases desc with desc | desc <;>
    · simp only [RmaPersistRank.exec, desc] at ran
      cases ran
  | served before rest launch task split left descs desc =>
    rcases left with left | left
    · obtain ⟨rfl, left⟩ := drop_succ here left
      simp only [RmaPersistRank.exec, desc] at ran
      cases ran
      exact .served before rest launch task split (.inr left) descs desc
    · obtain ⟨rfl, left⟩ := drop_succ here left
      cases ran
      refine .idle _ rest [] (by rw [split, append_assoc, singleton_append]) left nofun ?_
      intro other task' isWait _
      change (rank.setDesc launch 0 _).descs other 0 = _
      by_cases same : other = launch
      · rw [setDesc_descs, if_pos ⟨same, rfl⟩, desc]
        rfl
      · rw [setDesc_descs, if_neg fun both => same both.1]
        exact descs other task' isWait fun equal => same (some.inj equal)

end

/-! ### The proxy -/

/-- A descriptor with something to do is that of the wait that the stream is at. -/
theorem RankAt.at_wait (ok : RankAt program rank notes) (isWait : program.captured[launch]? = some (.wait task))
    (busy : (rank.descs launch 0).readySeq = 1 ∨ (rank.descs launch 0).rmaDescState = .inProgress) :
    ∃ before rest, notes = notesOf before ∧ played program = before ++ (launch, .wait task) :: rest ∧
      program.stream.drop rank.pc = .waitDone launch 0 :: .resetDone launch 0 :: opsOf rest ∧
      IdleBut program rank (some launch) ∧
      (rank.descs launch 0 = ⟨1, 0, .ready⟩ ∨ rank.descs launch 0 = ⟨0, 0, .inProgress⟩) := by
  have notIdle : rank.descs launch 0 ≠ .initial := by
    intro is
    rw [is] at busy
    rcases busy with busy | busy <;> cases busy
  cases ok with
  | idle before rest ops split left puts descs => exact absurd (descs launch task isWait nofun) notIdle
  | waiting before rest current task' split left descs desc =>
    by_cases same : launch = current
    · subst same
      have captured := captured_of_played (split ▸ mem_append_right _ (.head _) : (launch, _) ∈ played program)
      rw [isWait] at captured
      cases captured
      exact ⟨before, rest, rfl, split, left, descs, desc⟩
    · exact absurd (descs launch task isWait fun equal => same (some.inj equal)) notIdle
  | served before rest current task' split left descs desc =>
    by_cases same : launch = current
    · subst same
      rw [desc] at busy
      rcases busy with busy | busy <;> cases busy
    · exact absurd (descs launch task isWait fun equal => same (some.inj equal)) notIdle

theorem IdleBut.setDesc (descs : IdleBut program rank (some launch)) (desc : RmaPersistDesc) :
    IdleBut program (rank.setDesc launch 0 desc) (some launch) := by
  intro other task isWait differs
  rw [setDesc_descs, if_neg fun both => differs (congrArg some both.1)]
  exact descs other task isWait differs

/-- The proxy starts to serve the wait that the stream is at. -/
theorem RankAt.start (ok : RankAt program rank notes)
    (isWait : program.captured[launch]? = some (.wait task)) (ready : (rank.descs launch 0).readySeq = 1) :
    RankAt program (rank.setDesc launch 0 ⟨0, (rank.descs launch 0).doneSeq, .inProgress⟩) notes := by
  obtain ⟨before, rest, rfl, split, left, descs, desc⟩ := ok.at_wait isWait (.inl ready)
  refine .waiting before rest launch task split left (descs.setDesc _) (.inr ?_)
  rw [setDesc_descs, if_pos ⟨rfl, rfl⟩]
  rcases desc with desc | desc <;> rw [desc]

/-- The proxy has served the wait that the stream is at. -/
theorem RankAt.serve (ok : RankAt program rank notes) (isWait : program.captured[launch]? = some (.wait task))
    (serving : (rank.descs launch 0).rmaDescState = .inProgress) :
    RankAt program (rank.setDesc launch 0 ⟨(rank.descs launch 0).readySeq, 1, .ready⟩)
      (notes ++ launchNotes (.wait task)) := by
  obtain ⟨before, rest, rfl, split, left, descs, desc⟩ := ok.at_wait isWait (.inr serving)
  have noted : notesOf before ++ launchNotes (.wait task) = notesOf (before ++ [(launch, .wait task)]) := by
    simp [notesOf]
  rw [noted]
  refine .served before rest launch task split (.inl left) (descs.setDesc _) ?_
  rw [setDesc_descs, if_pos ⟨rfl, rfl⟩]
  rcases desc with desc | desc <;> rw [desc] at serving ⊢
  cases serving

/-! ### Signals consumed -/

theorem consumeSignals_holds (ctx : Nat) (entries : List (RmaWaitEntry n)) (holds : Holds host start) :
    Holds (consumeSignals n ctx entries host) fun key => start key + total (launchNotes (.wait ⟨ctx, entries⟩)) key := by
  induction entries generalizing host start with
  | nil => exact holds
  | cons entry rest ih =>
    have later := ih (holds.set ((ctx, ncclRmaSignalSlot n entry.signalIdx entry.peer), entry.nsignals.val))
    intro ctx' slot'
    exact (later ctx' slot').trans (congrArg UInt64.ofNat (update_total start _ _ _))

/-- Where the entries are apart, one of them asks for all signals of a slot. -/
theorem total_of_apart (apart : task.Apart) (key : Nat × Nat) :
    total (launchNotes (.wait task)) key = 0 ∨
      ∃ entry ∈ task.entries, key = (task.ctx, ncclRmaSignalSlot n entry.signalIdx entry.peer) ∧
        total (launchNotes (.wait task)) key = entry.nsignals := by
  obtain ⟨ctx, entries⟩ := task
  induction entries with
  | nil => exact .inl rfl
  | cons entry rest ih =>
    obtain ⟨others, apartRest⟩ := pairwise_cons.mp apart
    rw [total_wait_cons]
    by_cases here : (ctx, ncclRmaSignalSlot n entry.signalIdx entry.peer) = key
    · rw [if_pos here]
      rcases ih apartRest with none | ⟨other, member, is, counted⟩
      · exact .inr ⟨entry, .head _, here.symm, by rw [none, add_zero]⟩
      · rw [counted]
        obtain ⟨signalIdx, peer⟩ := signalSlot_eq_iff.mp (Prod.mk.inj (here.trans is)).2
        rcases others other member peer signalIdx with zero | zero
        · exact .inr ⟨other, .tail _ member, is, by rw [zero, zero_add]⟩
        · exact .inr ⟨entry, .head _, here.symm, by rw [zero, add_zero]⟩
    · rw [if_neg here, zero_add]
      rcases ih apartRest with none | ⟨other, member, is, counted⟩
      · exact .inl none
      · exact .inr ⟨other, .tail _ member, is, counted⟩

/-- A poll that finds every entry covered finds enough signals for all of them. -/
theorem enough_of_arrived (apart : task.Apart) (passes : signalsAllArrived task rank = true)
    (holds : Holds rank.cpuAccessSignalsHost (total notes)) {count : Nat}
    (word : rank.cpuAccessSignals key.1 key.2 = UInt64.ofNat count) (enough : total notes key ≤ count)
    (bounded : total (notes ++ launchNotes (.wait task)) key < 2 ^ 64) :
    total (notes ++ launchNotes (.wait task)) key ≤ count := by
  rw [total_append] at bounded ⊢
  rcases total_of_apart apart key with none | ⟨entry, member, rfl, counted⟩
  · rw [none]
    exact enough
  · have covered := all_eq_true.mp passes entry member
    simp only [decide_eq_true_eq, holds task.ctx, word, ← UInt64.ofNat_add, UInt64.lt_iff_toNat_lt,
      UInt64.toNat_ofNat'] at covered
    omega

/-! ### Runs -/

def signalWords (state : RmaPersistState n) (rank : Fin n) : RmaWords := (state.ranks rank).cpuAccessSignals

/-- What a rank is at, with the signals that its proxy has consumed. -/
structure Served (program : RmaCaptured n) (owner : Fin n) (rank : RmaPersistRank) (raised flying : List (RmaSlot n))
    (notes : List ((Nat × Nat) × Nat)) : Prop where
  position : RankAt program rank notes
  host : Holds rank.cpuAccessSignalsHost (total notes)
  enough : ∀ slot, slot.dst = owner → total notes (slot.ctx, slot.word) ≤ arrived raised flying slot

structure Inv (programs : Fin n → RmaCaptured n) (state : RmaPersistState n) : Prop where
  wire : Wire (signalWords state) state.raised state.flying
  served : ∀ self, ∃ notes, Served (programs self) self (state.ranks self) state.raised state.flying notes

variable {state next : RmaPersistState n}

theorem inv_initial : Inv programs .initial := by
  refine ⟨wire_initial, fun self => ⟨[], ?_, fun _ _ => rfl, fun _ _ => Nat.zero_le _⟩⟩
  exact .idle [] (played (programs self)) [] rfl (by rw [stream_eq]; rfl) nofun fun _ _ _ _ => rfl

theorem signalWords_update (ranks : next.ranks = update state.ranks self after) :
    signalWords next = update (signalWords state) self after.cpuAccessSignals := by
  have updated := comp_update RmaPersistRank.cpuAccessSignals state.ranks self after
  rw [← ranks] at updated
  exact updated

/-- An event of a rank by which no signal arrives. -/
theorem Inv.update (inv : Inv programs state) (after : RmaPersistRank)
    (ranks : next.ranks = update state.ranks self after)
    (signals : after.cpuAccessSignals = (state.ranks self).cpuAccessSignals)
    (wire : Wire (signalWords state) next.raised next.flying)
    (same : ∀ slot, arrived next.raised next.flying slot = arrived state.raised state.flying slot)
    (served : ∃ notes, Served (programs self) self after state.raised state.flying notes) : Inv programs next := by
  have kept : signalWords next = signalWords state := by
    rw [signalWords_update ranks, signals]
    exact update_eq_self self _
  refine ⟨kept ▸ wire, ?_⟩
  rw [ranks]
  refine (forall_update_iff _ fun owner rank => ∃ notes, Served (programs owner) owner rank _ _ notes).mpr
    ⟨served.imp fun _ served => ?_, fun other _ => (inv.served other).imp fun _ served => ?_⟩ <;>
  exact { served with enough := fun slot dst => same slot ▸ served.enough slot dst }

theorem Inv.stream (inv : Inv programs state) (taken : rmaPersistStep programs state (.stream self) = some next) :
    Inv programs next := by
  obtain ⟨op, here, rest⟩ := bind_eq_some_iff.mp taken
  obtain ⟨after, ran, moved⟩ := bind_eq_some_iff.mp rest
  obtain ⟨-, signals, host⟩ := exec_same ran
  obtain ⟨notes, served⟩ := inv.served self
  cases moved
  exact inv.update (stepped after) rfl signals inv.wire (fun _ => rfl)
    ⟨notes, served.position.exec here ran,
      fun ctx slot => (congrFun₂ host ctx slot).trans (served.host ctx slot), served.enough⟩

/-- A signal that arrives adds to its word. -/
theorem Inv.land (inv : Inv programs state) (taken : rmaPersistStep programs state (.land i) = some next) :
    Inv programs next := by
  obtain ⟨landed, here, moved⟩ := bind_eq_some_iff.mp taken
  cases moved
  refine ⟨?_, fun self => ?_⟩
  · rw [signalWords_update rfl]
    exact inv.wire.land here
  · obtain ⟨notes, served⟩ := inv.served self
    have enough : ∀ slot, slot.dst = self →
        total notes (slot.ctx, slot.word) ≤ arrived state.raised (state.flying.eraseIdx i) slot := by
      intro slot dst
      rw [inv.wire.arrived_land here]
      exact le_trans (served.enough slot dst) le_self_add
    by_cases mine : self = landed.dst
    · subst mine
      simp only [update_self]
      exact ⟨notes, served.position.congr rfl fun _ _ _ => rfl, served.host, enough⟩
    · simp only [update_of_ne mine]
      exact ⟨notes, served.position, served.host, enough⟩

/-- The proxy comes by the descriptor of a put. -/
theorem Served.put (served : Served program self rank raised flying notes)
    (isPut : program.captured[launch]? = some (.put tasks)) (task : Nat) (desc : RmaPersistDesc) :
    Served program self (rank.setDesc launch task desc) raised flying notes := by
  refine ⟨served.position.congr rfl fun other wait isWait => ?_, served.host, served.enough⟩
  rw [setDesc_descs, if_neg]
  rintro ⟨rfl, -⟩
  rw [isPut] at isWait
  cases isWait

/-- The proxy finds the signals of a wait arrived. -/
theorem Served.consume (separate : program.Separate) (served : Served program self rank raised flying notes)
    (words : ∀ slot, slot.dst = self →
      rank.cpuAccessSignals slot.ctx slot.word = UInt64.ofNat (arrived raised flying slot))
    (isWait : program.captured[launch]? = some (.wait task))
    (serving : (rank.descs launch 0).rmaDescState = .inProgress) (passes : signalsAllArrived task rank = true) :
    Served program self
      (({ rank with cpuAccessSignalsHost := consumeSignals n task.ctx task.entries rank.cpuAccessSignalsHost } :
        RmaPersistRank).setDesc launch 0 ⟨(rank.descs launch 0).readySeq, 1, .ready⟩)
      raised flying (notes ++ launchNotes (.wait task)) := by
  have position := served.position.serve isWait serving
  refine ⟨position.congr rfl fun _ _ _ => rfl, ?_, fun slot dst => ?_⟩
  · intro ctx slot
    rw [total_append]
    exact consumeSignals_holds task.ctx task.entries served.host ctx slot
  · refine enough_of_arrived (separate.apart task (mem_of_getElem? isWait)) passes served.host (words slot dst)
      (served.enough slot dst) ?_
    refine lt_of_le_of_lt (total_mono position.among _) ?_
    rw [notesOf, ← flatMap_map, ← launches_eq, RmaSlot.word, ← awaited_eq_total]
    exact separate.bounded slot.ctx slot.src slot.signalIdx

theorem Inv.poll (separate : ∀ self, (programs self).Separate) (inv : Inv programs state) {task : Nat}
    (taken : rmaPersistStep programs state (.poll self launch task) = some next) : Inv programs next := by
  obtain ⟨notes, served⟩ := inv.served self
  obtain ⟨captured, is, rest⟩ := bind_eq_some_iff.mp taken
  cases captured with
  | put =>
    obtain ⟨put, -, rest⟩ := bind_eq_some_iff.mp rest
    cases descState : ((state.ranks self).descs launch task).rmaDescState with
    | ready =>
      simp only [descState] at rest
      obtain ⟨-, -, moved⟩ := bind_eq_some_iff.mp rest
      cases moved
      exact inv.update _ rfl rfl (inv.wire.raise self put) (arrived_raiseSignal self put) ⟨notes, served.put is task _⟩
    | inProgress =>
      simp only [descState] at rest
      cases rest
      exact inv.update _ rfl rfl inv.wire (fun _ => rfl) ⟨notes, served.put is task _⟩
  | wait wait =>
    obtain ⟨_, first, rest⟩ := bind_eq_some_iff.mp rest
    obtain rfl : task = 0 := by simpa using first
    cases descState : ((state.ranks self).descs launch 0).rmaDescState with
    | ready =>
      simp only [descState] at rest
      obtain ⟨_, ready, moved⟩ := bind_eq_some_iff.mp rest
      have readySeq : ((state.ranks self).descs launch 0).readySeq = 1 := by simpa using ready
      cases moved
      exact inv.update _ rfl rfl inv.wire (fun _ => rfl)
        ⟨notes, served.position.start is readySeq, served.host, served.enough⟩
    | inProgress =>
      simp only [descState] at rest
      obtain ⟨_, all, moved⟩ := bind_eq_some_iff.mp rest
      have passes : signalsAllArrived wait (state.ranks self) = true := by simpa using all
      cases moved
      refine inv.update _ rfl rfl inv.wire (fun _ => rfl)
        ⟨_, served.consume (separate self) (fun slot dst => ?_) is descState passes⟩
      subst dst
      exact inv.wire.words slot

theorem run_inv (separate : ∀ self, (programs self).Separate)
    (run : rmaPersistRun programs events = some state) : Inv programs state := by
  refine foldlM_invariant run inv_initial fun {_ event _} inv taken => ?_
  cases event with
  | stream => exact inv.stream taken
  | poll => exact inv.poll separate taken
  | land => exact inv.land taken

/-! ### Launches completed -/

theorem opsOf_append (before rest : List (Nat × RmaLaunch n)) : opsOf (before ++ rest) = opsOf before ++ opsOf rest :=
  flatMap_append

theorem opsOf_cons_wait (launch : Nat) (task : RmaWait n) (rest : List (Nat × RmaLaunch n)) :
    opsOf ((launch, .wait task) :: rest) =
      .start launch 0 :: .waitDone launch 0 :: .resetDone launch 0 :: opsOf rest := rfl

theorem notesOf_of_no_ops (none : (opsOf launches).length = 0) : notesOf launches = [] := by
  refine flatMap_eq_nil_iff.mpr fun launch member => ?_
  have empty := flatMap_eq_nil_iff.mp (length_eq_zero_iff.mp none) launch member
  obtain ⟨i, launch⟩ := launch
  cases launch with
  | put => rfl
  | wait => cases empty

theorem total_le_or_longer (firstOf : first <+: launches) (beforeOf : before <+: launches) (key : Nat × Nat) :
    total (notesOf first) key ≤ total (notesOf before) key ∨ ∃ more, first = before ++ more := by
  rcases prefix_or_prefix_of_prefix firstOf beforeOf with ⟨more, rfl⟩ | ⟨more, rfl⟩
  · refine .inl ?_
    rw [notesOf_append, total_append]
    exact le_self_add
  · exact .inr ⟨more, rfl⟩

/-- Launches whose operations have all been executed have been served. -/
theorem RankAt.completed (ok : RankAt program rank notes) (firstOf : first <+: played program)
    (executed : (opsOf first).length ≤ rank.pc) (key : Nat × Nat) : total (notesOf first) key ≤ total notes key := by
  have whole : (opsOf first).length ≤ program.stream.length := by
    obtain ⟨more, split⟩ := firstOf
    rw [stream_eq, ← split, opsOf_append, length_append]
    exact le_self_add
  cases ok with
  | idle before rest ops split left puts descs =>
    rcases total_le_or_longer firstOf ⟨rest, split.symm⟩ key with done | ⟨more, rfl⟩
    · exact done
    · have lengths := congrArg length left
      have stream := congrArg length (stream_eq program)
      rw [split] at stream
      simp only [opsOf_append, length_append, length_drop] at lengths stream executed whole
      have none : notesOf more = [] := notesOf_of_no_ops (by omega)
      rw [notesOf_append, none, append_nil]
  | waiting before rest launch task split left descs desc =>
    rcases total_le_or_longer firstOf ⟨_, split.symm⟩ key with done | ⟨more, rfl⟩
    · exact done
    · have lengths := congrArg length left
      have stream := congrArg length (stream_eq program)
      rw [split] at stream firstOf
      rw [opsOf_append, opsOf_cons_wait] at stream
      rcases prefix_cons_iff.mp ((prefix_append_right_inj before).mp firstOf) with rfl | ⟨more, rfl, -⟩
      · rw [append_nil]
      · rw [opsOf_append, opsOf_cons_wait] at executed
        simp only [length_append, length_cons, length_drop] at lengths stream executed
        omega
  | served before rest launch task split left descs desc =>
    have split' : (before ++ [(launch, .wait task)]) ++ rest = played program := by
      rw [split, append_assoc, singleton_append]
    rcases total_le_or_longer firstOf ⟨rest, split'⟩ key with done | ⟨more, rfl⟩
    · exact done
    · have stream := congrArg length (stream_eq program)
      rw [split, opsOf_append, opsOf_cons_wait] at stream
      rw [opsOf_append, opsOf_append, opsOf_cons_wait] at executed
      rcases left with left | left <;>
      · have lengths := congrArg length left
        simp only [length_append, length_cons, length_drop] at lengths stream executed
        omega

/-- The waits of the launches completed have been served. -/
theorem awaited_le_raised (separate : ∀ self, (programs self).Separate)
    (run : rmaPersistRun programs events = some state)
    (executed : ((programs self).blocks.take m).flatten.length ≤ (state.ranks self).pc) (ctx : Nat) (peer : Fin n)
    (signalIdx : Nat) :
    awaited ((programs self).launches.take m) ctx peer signalIdx ≤ state.raised.count ⟨ctx, signalIdx, peer, self⟩ := by
  obtain ⟨notes, served⟩ := (run_inv separate run).served self
  have first : ((programs self).blocks.take m).flatten = opsOf ((played (programs self)).take m) := by
    rw [blocks_eq, ← map_take, opsOf, flatMap_def]
  have noted : ((programs self).launches.take m).flatMap launchNotes = notesOf ((played (programs self)).take m) := by
    rw [launches_eq, ← map_take, flatMap_map, notesOf]
  rw [first] at executed
  calc awaited ((programs self).launches.take m) ctx peer signalIdx
      = total (notesOf ((played (programs self)).take m)) (ctx, ncclRmaSignalSlot n signalIdx peer) := by
        rw [awaited_eq_total, noted]
    _ ≤ total notes (ctx, ncclRmaSignalSlot n signalIdx peer) :=
        served.position.completed ( take_prefix m _) executed _
    _ ≤ arrived state.raised state.flying ⟨ctx, signalIdx, peer, self⟩ := served.enough ⟨ctx, signalIdx, peer, self⟩ rfl
    _ ≤ _ := arrived_le _ _ _

end NcclCore.RmaPersistProofs
