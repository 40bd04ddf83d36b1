import NcclCore.Rma
import NcclCore.Lib.Tally

/-! The cumulative waits of a WaitSignal outside of a graph, as notes of numbers of
signals on the slots: the copy-engine and the proxy path fix the values at launch,
and wait for them in the order of the stream. -/
namespace NcclCore.RmaWaits
open Lib List
variable {n : Nat}

/-- The signals that a launch waits for, by context and slot. -/
def launchNotes : RmaLaunch n → List ((Nat × Nat) × Nat)
  | .put _ => []
  | .wait task => task.entries.map fun entry =>
    ((task.ctx, ncclRmaSignalSlot n entry.signalIdx entry.peer), entry.nsignals.val)

theorem total_wait_cons (ctx : Nat) (entry : RmaWaitEntry n) (rest : List (RmaWaitEntry n)) (key : Nat × Nat) :
    total (launchNotes (.wait ⟨ctx, entry :: rest⟩)) key =
      (if (ctx, ncclRmaSignalSlot n entry.signalIdx entry.peer) = key then entry.nsignals.val else 0) +
        total (launchNotes (.wait ⟨ctx, rest⟩)) key :=
  total_cons _ _ _

theorem awaited_eq_total (launches : List (RmaLaunch n)) (ctx : Nat) (peer : Fin n) (signalIdx : Nat) :
    awaited launches ctx peer signalIdx =
      total (launches.flatMap launchNotes) (ctx, ncclRmaSignalSlot n signalIdx peer) := by
  induction launches with
  | nil => rfl
  | cons launch rest ih =>
    rw [flatMap_cons, total_append, awaited, map_cons, sum_cons]
    congr 1
    cases launch with
    | put => rfl
    | wait task =>
      simp only [launchNotes, total, filter_map, map_map]
      by_cases here : task.ctx = ctx
      · subst here
        rw [if_pos rfl]
        congr 2
        refine filter_congr fun entry _ => ?_
        simp [signalSlot_eq_iff, and_comm]
      · rw [if_neg here]
        have none : task.entries.filter ((fun note => decide (note.1 = (ctx, ncclRmaSignalSlot n signalIdx peer))) ∘
            fun entry => ((task.ctx, ncclRmaSignalSlot n entry.signalIdx entry.peer), entry.nsignals.val)) = [] := by
          simp [here]
        rw [none]
        rfl

/-- A wait that compares cyclically does not pass on too few signals. -/
theorem geq_sound {raised waited count : Nat} (enough : waited ≤ raised) (small : count < 2 ^ 31)
    (passes : cuWaitValueGeq (UInt64.ofNat raised) (UInt64.ofNat (waited + count))) : waited + count ≤ raised := by
  rw [cuWaitValueGeq, decide_eq_true_iff, UInt64.toNat_sub, UInt64.toNat_ofNat', UInt64.toNat_ofNat'] at passes
  omega

theorem notes_small {launches : List (RmaLaunch n)} {note : (Nat × Nat) × Nat}
    (member : note ∈ launches.flatMap launchNotes) : note.2 < 2 ^ 31 := by
  obtain ⟨launch, -, inLaunch⟩ := mem_flatMap.mp member
  cases launch with
  | put => cases inLaunch
  | wait =>
    obtain ⟨entry, -, rfl⟩ := mem_map.mp inLaunch
    exact entry.nsignals.isLt

/-- The words of the host hold totals. -/
def Holds (host : RmaWords) (start : Nat × Nat → Nat) : Prop :=
  ∀ ctx slot, host ctx slot = UInt64.ofNat (start (ctx, slot))

theorem Holds.set (holds : Holds host start) (note : (Nat × Nat) × Nat) :
    Holds (host.set note.1.1 note.1.2 (host note.1.1 note.1.2 + UInt64.ofNat note.2))
      (Function.update start note.1 (start note.1 + note.2)) := by
  obtain ⟨⟨ctx, slot⟩, amount⟩ := note
  intro ctx' slot'
  rw [RmaWords.set_apply]
  by_cases here : ctx' = ctx ∧ slot' = slot
  · obtain ⟨rfl, rfl⟩ := here
    rw [if_pos ⟨rfl, rfl⟩, Function.update_self, holds, UInt64.ofNat_add]
  · rw [if_neg here, Function.update_of_ne (by simpa using here), holds]

/-- `cumulativeWaits` waits for the running totals. -/
theorem cumulativeWaits_spec (ctx : Nat) (entries : List (RmaWaitEntry n)) (holds : Holds host start) :
    (cumulativeWaits n ctx entries host).2.map (fun wait => ((ctx, wait.1), wait.2)) =
        (runningTotals start (launchNotes (.wait ⟨ctx, entries⟩))).map (Prod.map id UInt64.ofNat) ∧
      Holds (cumulativeWaits n ctx entries host).1 fun key =>
        start key + total (launchNotes (.wait ⟨ctx, entries⟩)) key := by
  induction entries generalizing host start with
  | nil => exact ⟨rfl, holds⟩
  | cons entry rest ih =>
    have later := ih (holds.set ((ctx, ncclRmaSignalSlot n entry.signalIdx entry.peer), entry.nsignals.val))
    refine ⟨?_, ?_⟩
    · simp only [cumulativeWaits, launchNotes, map_cons, runningTotals, Prod.map_apply, id,
        UInt64.ofNat_add, ← holds ctx]
      exact congrArg _ later.1
    · intro ctx' slot'
      exact (later.2 ctx' slot').trans (congrArg UInt64.ofNat (update_total start _ _ _))

variable {Op : Type} {asWait : Op → Option ((Nat × Nat) × UInt64)} {stream : List Op} {launches : List (RmaLaunch n)}

/-- The waits of a stream are those of the launches. -/
def Carries (asWait : Op → Option ((Nat × Nat) × UInt64)) (stream : List Op) (launches : List (RmaLaunch n)) : Prop :=
  stream.filterMap asWait = (runningTotals (fun _ => 0) (launches.flatMap launchNotes)).map (Prod.map id UInt64.ofNat)

/-- The waits of a launch are its running totals, and the words of the host hold them then. -/
def LaunchCarries (asWait : Op → Option ((Nat × Nat) × UInt64)) (run : Host → RmaLaunch n → Host × List Op)
    (words : Host → RmaWords) : Prop :=
  ∀ host start launch, Holds (words host) start →
    (run host launch).2.filterMap asWait =
        (runningTotals start (launchNotes launch)).map (Prod.map id UInt64.ofNat) ∧
      Holds (words (run host launch).1) fun key => start key + total (launchNotes launch) key

theorem LaunchCarries.blocks (each : LaunchCarries asWait run words) (holds : Holds (words host) start)
    (launches : List (RmaLaunch n)) : (launchBlocks run launches host).flatten.filterMap asWait =
      (runningTotals start (launches.flatMap launchNotes)).map (Prod.map id UInt64.ofNat) := by
  induction launches generalizing host start with
  | nil => rfl
  | cons launch rest ih =>
    obtain ⟨here, held⟩ := each _ _ launch holds
    rw [launchBlocks, flatten_cons, filterMap_append, here, ih held, flatMap_cons, runningTotals_append, map_append]

theorem launchBlocks_take (launches : List (RmaLaunch n)) (m : Nat) :
    launchBlocks run (launches.take m) host = (launchBlocks run launches host).take m := by
  induction launches generalizing host m with
  | nil => cases m <;> rfl
  | cons launch rest ih =>
    cases m with
    | zero => rfl
    | succ => simp [launchBlocks, ih]

/-- The signals that the waits among the first operations asked for. -/
def waitedFor (asWait : Op → Option ((Nat × Nat) × UInt64)) (stream : List Op) (launches : List (RmaLaunch n)) (pc : Nat)
    (key : Nat × Nat) : Nat :=
  total ((launches.flatMap launchNotes).take (passed asWait stream pc)) key

/-- An operation that passes keeps the signals waited for below those raised. -/
theorem waitedFor_step (carries : Carries asWait stream launches) {pc : Nat} {op : Op} (here : stream[pc]? = some op)
    {key : Nat × Nat} {raised : Nat} (enough : waitedFor asWait stream launches pc key ≤ raised)
    (passes : ∀ value, asWait op = some (key, value) → cuWaitValueGeq (UInt64.ofNat raised) value) :
    waitedFor asWait stream launches (pc + 1) key ≤ raised := by
  rw [waitedFor, passed_succ here]
  cases noted : asWait op with
  | none => exact enough
  | some note =>
    obtain ⟨key', value⟩ := note
    obtain ⟨amount, note, is⟩ := note_of_next carries here noted
    rw [if_pos (Option.isSome_some), total_take_succ note]
    by_cases same : key' = key
    · subst same
      rw [if_pos rfl]
      have geq := passes value noted
      rw [is] at geq
      exact geq_sound enough (notes_small (mem_of_getElem? note)) geq
    · rw [if_neg same]
      exact enough

/-- Launches whose operations have all been executed waited for no more than the
operations executed so far did. -/
theorem awaited_le_waitedFor (carries : Carries asWait first (launches.take m)) (isPrefix : first <+: stream)
    (executed : first.length ≤ pc) (ctx : Nat) (peer : Fin n) (signalIdx : Nat) :
    awaited (launches.take m) ctx peer signalIdx ≤
      waitedFor asWait stream launches pc (ctx, ncclRmaSignalSlot n signalIdx peer) := by
  rw [awaited_eq_total]
  refine total_le_passed isPrefix ?_ ?_ executed _
  · obtain ⟨rest, split⟩ := take_prefix m launches
    exact ⟨rest.flatMap launchNotes, by rw [← flatMap_append, split]⟩
  · rw [carries, length_map, runningTotals_length]

end NcclCore.RmaWaits
