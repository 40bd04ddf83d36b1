import Mathlib.Data.Fintype.EquivFin
import NcclCore.BootstrapRingProofs

/-! When the AllGather of the bootstrap ring returns everywhere, and what it leaves. -/
namespace NcclCore.BootstrapGatherProofs
open Lib RingGather BootstrapRingProofs Function

section
variable {n size : Nat}

def stageIndex : RingStage → Nat
  | .sizes0 => 0
  | .sizes1 => 1
  | .data => 2

/-- The number of the call of a rank among all calls. -/
def stageNo (n : Nat) (rank : GatherRank) : Nat :=
  match rank.call with
  | some call => 3 * call.step + stageIndex call.stage
  | none => 3 * totalSteps n

/-- The bytes on a ring in the calls before a number. -/
def due (n size : Nat) (ring : Ring) (number : Nat) : Nat :=
  if number / 3 < lastStep n ring then
    number / 3 * (4 + size) + if number % 3 = 0 ∨ (number % 3 = 1 ∧ ring = .ring1) then 0 else 4
  else lastStep n ring * (4 + size)

theorem due_at (n size : Nat) (ring : Ring) (step : Nat) (below : index < 3) :
    due n size ring (3 * step + index) =
      if step < lastStep n ring then step * (4 + size) + if index = 0 ∨ (index = 1 ∧ ring = .ring1) then 0 else 4
      else lastStep n ring * (4 + size) := by
  rw [due, show (3 * step + index) / 3 = step by omega, show (3 * step + index) % 3 = index by omega]

theorem due_succ (n size : Nat) (ring : Ring) (step : Nat) : due n size ring (3 * step + 3) =
    if step < lastStep n ring then step * (4 + size) + (4 + size) else lastStep n ring * (4 + size) := by
  rw [show 3 * step + 3 = 3 * (step + 1) + 0 by omega, due_at n size ring (step + 1) (by decide)]
  have grows : (step + 1) * (4 + size) = step * (4 + size) + (4 + size) := Nat.add_one_mul _ _
  rcases lt_trichotomy (step + 1) (lastStep n ring) with more | last | over_
  · simp [more, Nat.lt_of_succ_lt more, grows]
  · simp [← last, grows]
  · simp [Nat.not_lt.mpr over_.le, Nat.not_lt.mpr (Nat.le_of_lt_succ over_)]

theorem due_mono (n size : Nat) (ring : Ring) : Monotone (due n size ring) := by
  refine monotone_nat_of_le_succ fun number => ?_
  obtain ⟨step, index, below, rfl⟩ : ∃ step index, index < 3 ∧ number = 3 * step + index :=
    ⟨number / 3, number % 3, Nat.mod_lt _ (by decide), (Nat.div_add_mod number 3).symm⟩
  obtain rfl | before : index = 2 ∨ index + 1 < 3 := by omega
  · rw [due_at n size ring step below, due_succ]
    split <;> simp
  · rw [due_at n size ring step below, add_assoc, due_at n size ring step before]
    split
    · refine Nat.add_le_add_left ?_ _
      obtain rfl | rfl : index = 0 ∨ index = 1 := by omega
      · simp
      · cases ring <;> simp
    · exact le_rfl

variable {step : Nat}

theorem step_lt_lastStep (within : step < totalSteps n) (used : uses n step .data ring) : step < lastStep n ring := by
  rw [uses_data_iff] at used
  cases ring with
  | ring0 => exact within
  | ring1 =>
    simp only [lastStep]
    split
    next even =>
      rcases used with other | more
      · cases other
      · omega
    next => exact within

theorem lastStep_eq (unused : uses n step .data ring = false) : ring = .ring1 ∧ lastStep n ring = step := by
  have neither : ¬ (ring = .ring0 ∨ ¬ (step = totalSteps n - 1 ∧ n % 2 = 0)) := by
    rw [← uses_data_iff]
    simp [unused]
  obtain ⟨other, both⟩ := not_or.mp neither
  obtain ⟨last, even⟩ := not_not.mp both
  cases ring with
  | ring0 => exact absurd rfl other
  | ring1 => exact ⟨rfl, by rw [lastStep, if_pos even, last]⟩

variable {rank : GatherRank}

/-- Before a call, what is due is what the calls before it moved. -/
theorem due_call (ok : CallOk n size rank call) (ring : Ring) :
    due n size ring (3 * call.step + stageIndex call.stage) =
        call.step * (4 + size) + stageBase n call.step call.stage ring ∧
      due n size ring (3 * call.step + stageIndex call.stage + 1) =
        call.step * (4 + size) + stageBase n call.step call.stage ring +
          if uses n call.step call.stage ring then amount size call.stage else 0 := by
  cases used : uses n call.step .data ring with
  | true =>
    have this := step_lt_lastStep ok.within used
    cases stage : call.stage with
    | sizes0 =>
      rw [stageIndex, due_at n size ring _ (by decide), due_at n size ring call.step (show 0 + 1 < 3 by decide)]
      cases ring <;> simp [this, stageBase, uses, amount]
    | sizes1 =>
      rw [stageIndex, due_at n size ring _ (by decide), due_at n size ring call.step (show 1 + 1 < 3 by decide)]
      cases ring <;> simp [this, stageBase, uses, amount]
    | data =>
      rw [stageIndex, due_at n size ring _ (by decide), due_succ]
      simp [this, stageBase, used, amount, add_assoc]
  | false =>
    obtain ⟨rfl, last⟩ := lastStep_eq used
    have below : ∀ number, 3 * call.step ≤ number → ¬ number / 3 < lastStep n .ring1 := by
      intro number le
      omega
    unfold due
    rw [if_neg (below _ (by omega)), if_neg (below _ (by omega)), last]
    cases stage : call.stage with
    | sizes0 => simp [stageBase, uses]
    | sizes1 =>
      have both := ok.both stage
      simp [uses, both] at used
    | data => simp [stageBase, used]

theorem lastStep_le (n : Nat) (ring : Ring) : lastStep n ring ≤ totalSteps n := by
  cases ring with
  | ring0 => exact le_rfl
  | ring1 =>
    simp only [lastStep]
    split <;> omega

theorem stageNo_lt (here : rank.call = some call) (ok : CallOk n size rank call) :
    stageNo n rank < 3 * totalSteps n := by
  have within := ok.within
  simp only [stageNo, here]
  cases call.stage <;> simp only [stageIndex] <;> omega

section
variable (ok : ∀ call, rank.call = some call → CallOk n size rank call)
include ok

theorem stageNo_le : stageNo n rank ≤ 3 * totalSteps n := by
  cases here : rank.call with
  | none => simp [stageNo, here]
  | some call => exact le_of_lt (stageNo_lt here (ok call here))

theorem due_le_pos (dir : SocketDir) (ring : Ring) :
    due n size ring (stageNo n rank) ≤ pos n size rank dir ring := by
  unfold stageNo pos
  cases here : rank.call with
  | none =>
    simp only
    rw [due, if_neg]
    have := lastStep_le n ring
    omega
  | some call =>
    simp only
    rw [(due_call (ok call here) ring).1, inStep_call here]
    omega

theorem pos_le (dir : SocketDir) (ring : Ring) : pos n size rank dir ring ≤ totalSteps n * (4 + size) := by
  unfold pos
  cases here : rank.call with
  | none =>
    exact Nat.mul_le_mul_right _ (lastStep_le n ring)
  | some call =>
    have callOk := ok call here
    have within : (call.step + 1) * (4 + size) ≤ totalSteps n * (4 + size) := Nat.mul_le_mul_right _ callOk.within
    rw [Nat.add_one_mul] at within
    have offset := callOk.offsets dir ring
    simp only [inStep_call here]
    have inside : stageBase n call.step call.stage ring + call.offset dir ring ≤ 4 + size := by
      cases used : uses n call.step call.stage ring with
      | true =>
        rw [used] at offset
        have := (inStep_le used (show call.offset dir ring + 0 ≤ _ from offset)).1
        omega
      | false =>
        rw [used, if_neg (by decide)] at offset
        have base : stageBase n call.step call.stage ring ≤ 4 := by
          cases call.stage <;> cases ring <;> simp only [stageBase] <;> first | omega | (split <;> omega)
        omega
    omega

/-- How far a rank has come. -/
def progress (n size : Nat) (rank : GatherRank) : Nat :=
  stageNo n rank + (pos n size rank .send .ring0 + pos n size rank .recv .ring0 + pos n size rank .send .ring1 +
    pos n size rank .recv .ring1)

def progressBound (n size : Nat) : Nat := 3 * totalSteps n + 4 * (totalSteps n * (4 + size))

theorem progress_le : progress n size rank ≤ progressBound n size := by
  have number := stageNo_le ok
  have s0 := pos_le ok .send .ring0
  have r0 := pos_le ok .recv .ring0
  have s1 := pos_le ok .send .ring1
  have r1 := pos_le ok .recv .ring1
  simp only [progress, progressBound]
  omega

end

/-- An end of a ring that is behind has a transfer to go on with. -/
theorem pos_lt_due (here : rank.call = some call) (ok : CallOk n size rank call)
    (behind : pos n size rank dir ring < due n size ring (stageNo n rank + 1)) :
    uses n call.step call.stage ring ∧ call.offset dir ring + 1 ≤ amount size call.stage := by
  simp only [pos, stageNo, here] at behind
  rw [(due_call ok ring).2, inStep_call here] at behind
  split at behind
  next used => exact ⟨used, by omega⟩
  next => omega

theorem offset_of_due (here : rank.call = some call) (ok : CallOk n size rank call)
    (done : due n size ring (stageNo n rank + 1) ≤ pos n size rank dir ring) (used : uses n call.step call.stage ring) :
    amount size call.stage ≤ call.offset dir ring := by
  simp only [pos, stageNo, here] at done
  rw [(due_call ok ring).2, if_pos used, inStep_call here] at done
  omega

/-- The count of `ncclSocketMultiOp` can come to its end. -/
def Counts (n size : Nat) : Prop := n ≤ 2 ∨ 0 < size

theorem isComplete_of_moved (ok : CallOk n size rank call) (small : size < 2 ^ 31) (counts : Counts n size)
    (moved : ∀ dir ring, uses n call.step call.stage ring → amount size call.stage ≤ call.offset dir ring) :
    isComplete size n rank call := by
  have within := ok.within
  rw [isComplete]
  split
  next multi =>
    obtain ⟨data, both⟩ := multi
    have both : isFinalUnidirectional n call.step = false := by simpa using both
    have used : ∀ ring, uses n call.step call.stage ring := by
      intro ring
      simp [data, uses, both]
    -- with two transfers in each direction there are three ranks
    have positive : 0 < size := by
      rcases counts with few | positive
      · simp only [isFinalUnidirectional, Bool.decide_and, Bool.and_eq_false_iff, decide_eq_false_iff_not] at both
        simp only [totalSteps] at within both
        omega
      · exact positive
    have ended : ∀ dir ring, size ≤ call.offset dir ring := by
      intro dir ring
      have := moved dir ring (used ring)
      rwa [data] at this
    rw [ok.counted data both]
    simp [finishedOps, positive, ended]
  next =>
    rw [List.all_eq_true]
    intro ring _
    cases used : uses n call.step call.stage ring with
    | false => rfl
    | true =>
      simp only [Bool.not_true, Bool.false_or, List.all_eq_true]
      intro dir _
      rw [ok.opSize_eq small used]
      exact decide_eq_true (moved dir ring used)

theorem stageNo_startStep (within : step < totalSteps n) (rank : GatherRank)
    (started : rank.call = startStep n (step + 1)) : stageNo n rank = 3 * (step + 1) := by
  by_cases more : step + 1 < totalSteps n
  · simp [stageNo, started, startStep, more, startCall, stageIndex]
  · simp only [stageNo, started, startStep, more, if_false]
    omega

/-- A call that returns leaves the rank further and working. -/
theorem stageNo_afterCall (here : rank.call = some call) (ok : CallOk n size rank call) (small : size < 2 ^ 31)
    (complete : isComplete size n rank call) :
    stageNo n rank < stageNo n (afterCall size n r rank call) ∧ (afterCall size n r rank call).failed = rank.failed := by
  rcases ok.afterCall_cases (r := r) small (ok.complete small complete) with ⟨stage, is, kinds⟩ | data
  · rw [is]
    refine ⟨?_, rfl⟩
    simp only [stageNo, here, startCall]
    rcases kinds with ⟨before, rfl, -⟩ | ⟨before, rfl, -⟩ | ⟨before, rfl, -⟩ <;> rw [before] <;> simp [stageIndex]
  · have after := stageNo_startStep ok.within (afterCall size n r rank call) (by simp only [afterCall, data])
    refine ⟨?_, by simp only [afterCall, data]⟩
    rw [after]
    simp only [stageNo, here, data, stageIndex]
    omega

theorem bmod_of_large {x : Nat} (large : 2 ^ 31 ≤ x) (small : x < 2 ^ 32) : Int.bmod x (2 ^ 32) < 0 := by
  rw [Int.bmod_def]
  split_ifs <;> omega

/-- A slice too far for an `int` is written before the data. -/
theorem exists_negative (small : size < 2 ^ 31) (far : ¬ InRange n size) :
    ∃ s < n, 0 < s ∧ 0 < size ∧ sliceAddr size s < 0 := by
  have far := Nat.not_lt.mp far
  have positive : 0 < size := by
    rcases eq_zero_or_pos size with rfl | positive
    · simp at far
    · exact positive
  -- the first slice that is too far
  have reaches : ∃ s, 2 ^ 31 ≤ s * size := ⟨_, far⟩
  have first := Nat.find_spec reaches
  have least : ∀ s, 2 ^ 31 ≤ s * size → Nat.find reaches ≤ s := fun s => Nat.find_min' reaches
  generalize Nat.find reaches = s at first least
  have s_pos : 0 < s := by
    rcases eq_zero_or_pos s with rfl | s_pos
    · simp at first
    · exact s_pos
  have s_lt := least _ far
  have before : (s - 1) * size < 2 ^ 31 := by
    by_contra reached
    have := least (s - 1) (Nat.not_lt.mp reached)
    omega
  have close : s * size < 2 ^ 32 := by
    have : s * size = (s - 1) * size + size := by
      rw [← Nat.add_one_mul, Nat.sub_add_cancel s_pos]
    omega
  refine ⟨s, by omega, s_pos, positive, ?_⟩
  have := bmod_of_large first close
  rwa [Nat.cast_mul] at this

end

section
variable {n : Nat} [NeZero n] {size capacity : Nat} {state next : RingState n}

/-- Both ends of the streams. -/
def net (n : Nat) [NeZero n] : Streams (Fin n) (Fin n × Ring) := ⟨(·.1), fun chan => dest chan.1 chan.2⟩

theorem paced (inv : Inv size memory state) :
    (net n).Paced (fun chan => due n size chan.2) (fun r => stageNo n (state.ranks r))
      (sentAt size state.ranks) (rcvdAt size state.ranks) where
  sent_low := fun chan => due_le_pos (inv.rank chan.1).call .send chan.2
  rcvd_low := fun chan => due_le_pos (inv.rank (dest chan.1 chan.2)).call .recv chan.2

/-- An event that is no failure. -/
def Works : RingEvent n → Prop
  | .fail _ => False
  | _ => True

/-- While a rank has not returned, something can happen. -/
theorem exists_event (inv : Inv size memory state) (small : size < 2 ^ 31) (room : 0 < capacity)
    (counts : Counts n size) (working : ∀ r, (state.ranks r).failed = false)
    (unfinished : (state.ranks r).call ≠ none) : ∃ event, Works event ∧ (step size capacity state event).isSome := by
  have called : ∀ p, stageNo n (state.ranks p) < 3 * totalSteps n → ∃ call, (state.ranks p).call = some call := by
    intro p before
    cases here : (state.ranks p).call with
    | some call => exact ⟨call, rfl⟩
    | none => simp [stageNo, here] at before
  have behind : stageNo n (state.ranks r) < 3 * totalSteps n := by
    obtain ⟨call, here⟩ := Option.ne_none_iff_exists'.mp unfinished
    exact stageNo_lt here ((inv.rank r).call call here)
  rcases (paced inv).exists_step (fun chan => due_mono n size chan.2) room behind with
    ⟨p, before, sends, recvs⟩ | ⟨⟨p, ring⟩, before, missing, fits⟩ | ⟨⟨p, ring⟩, before, missing, there⟩
  · obtain ⟨call, here⟩ := called p before
    have ok := (inv.rank p).call call here
    refine ⟨.ret p, trivial, ?_⟩
    have complete : isComplete size n (state.ranks p) call := by
      refine isComplete_of_moved ok small counts fun dir ring used => ?_
      cases dir with
      | send => exact offset_of_due here ok (sends (p, ring) rfl) used
      | recv =>
        have done := recvs (source p ring, ring) (dest_source p ring)
        simp only [rcvdAt, dest_source] at done
        exact offset_of_due here ok done used
    simp [step, ret, here, working, complete]
  · obtain ⟨call, here⟩ := called p before
    have ok := (inv.rank p).call call here
    obtain ⟨used, more⟩ := pos_lt_due here ok missing
    have length := inv.carries.length (p, ring)
    have space : (state.streams (p, ring)).length + 1 ≤ capacity := by omega
    refine ⟨.transfer p .send ring 1, trivial, ?_⟩
    have long := ok.opSize_eq small used .send
    simp [step, transfer, here, working, used, long, more, space]
  · obtain ⟨call, here⟩ := called (dest p ring) before
    have ok := (inv.rank (dest p ring)).call call here
    obtain ⟨used, more⟩ := pos_lt_due here ok missing
    have length := inv.carries.length (p, ring)
    have some_ : 1 ≤ (state.streams (p, ring)).length := by omega
    refine ⟨.transfer (dest p ring) .recv ring 1, trivial, ?_⟩
    have long := ok.opSize_eq small used .recv
    simp [step, transfer, here, working, used, long, more, some_]

/-- An event that is no failure moves one rank on and leaves it working. -/
theorem progress_step (inv : Inv size memory state) (small : size < 2 ^ 31) (works : Works event)
    (taken : step size capacity state event = some next) :
    ∃ r, progress n size (state.ranks r) < progress n size (next.ranks r) ∧
      (next.ranks r).failed = (state.ranks r).failed ∧ ∀ r', r' ≠ r → next.ranks r' = state.ranks r' := by
  cases event with
  | fail => cases works
  | transfer r dir ring bytes =>
    obtain ⟨call, here, used, some_, -, moves⟩ := transfer_cases taken
    refine ⟨r, ?_⟩
    have further : ∀ rank' : GatherRank, rank'.call = some (advance call dir ring bytes
        (opSize size (state.ranks r).senderRecvSize dir ring call.stage)) →
        progress n size (state.ranks r) < progress n size rank' := by
      intro rank' moved
      have number : stageNo n rank' = stageNo n (state.ranks r) := by
        simp [stageNo, moved, here, advance]
      have places := pos_advance here moved n size
      simp only [progress, number, places]
      cases dir <;> cases ring <;> simp <;> omega
    cases dir with
    | send =>
      obtain ⟨-, rfl⟩ := moves
      simp only [update_self]
      exact ⟨further _ rfl, trivial, fun r' other => update_of_ne other _ _⟩
    | recv =>
      obtain ⟨-, rfl⟩ := moves
      simp only [update_self]
      refine ⟨further _ (writeBytes_call _ _ _ _), ?_, fun r' other => update_of_ne other _ _⟩
      cases opBuf n r call.step .recv ring call.stage <;> rfl
  | ret r =>
    obtain ⟨call, here, complete, rfl⟩ := ret_cases taken
    have ok := inv.rank r
    obtain ⟨number, failed⟩ := stageNo_afterCall (r := r) here (ok.call call here) small complete
    obtain ⟨-, same⟩ := ok.after small here complete
    refine ⟨r, ?_⟩
    simp only [update_self]
    refine ⟨?_, failed, fun r' other => update_of_ne other _ _⟩
    simp only [progress, same]
    omega

end

variable {n : Nat} [NeZero n] {size capacity : Nat} {state : RingState n} {memory : Nat → Int → Nat}

/-- A rank has failed if one of its calls has. -/
theorem failed_iff (small : size < 2 ^ 31) {events : List (RingEvent n)} (r : Fin n)
    (run : events.foldlM (step size capacity) (init memory) = some state) :
    (state.ranks r).failed = true ↔ .fail r ∈ events := by
  refine foldlM_set_iff (fun state => (state.ranks r).failed = true) Bool.false_ne_true
    (fun {_ state event next} before taken => ?_) run
  have kept (works : Works event) : (next.ranks r).failed = (state.ranks r).failed := by
    obtain ⟨moved, -, failed, others⟩ := progress_step (Inv.run small before) small works taken
    by_cases here : r = moved
    · rw [here, failed]
    · rw [others r here]
  cases event with
  | fail p =>
    obtain rfl := fail_cases taken
    by_cases here : p = r
    · simp [here]
    · simp [here, Ne.symm here]
  | _ => simp [kept trivial]

/-- A run of all ranks in which no call fails. -/
def Runs (size capacity : Nat) (memory : Nat → Int → Nat) (events : List (RingEvent n)) (state : RingState n) : Prop :=
  RunsWith (step size capacity) Works (init memory) events state

/-- The rank has returned `ncclSuccess`. -/
def Returned (rank : GatherRank) : Prop := rank.call = none ∧ rank.failed = false

/-- All calls return, and each rank has every slice then; a slice is sent when it is there,
and nothing is written outside of the slices. -/
structure Gathers (n : Nat) [NeZero n] (size capacity : Nat) (memory : Nat → Int → Nat) : Prop where
  bounded : ∃ bound, ∀ events (state : RingState n), Runs size capacity memory events state → events.length ≤ bound
  returns : ∀ events (state : RingState n), Runs size capacity memory events state →
    (∀ event, Works event → step size capacity state event = none) → ∀ r, Returned (state.ranks r)
  ordered : ∀ events (state : RingState n), Runs size capacity memory events state → ∀ (r : Fin n) call ring,
    (state.ranks r).call = some call → call.stage = .data → uses n call.step .data ring →
      slice n r call.step .send ring ∈ (state.ranks r).held
  inside : ∀ events (state : RingState n), Runs size capacity memory events state → ∀ r, ∀ address : Int,
    (address ∈ (state.ranks r).written → 0 ≤ address ∧ address < n * size) ∧
      (address ∉ (state.ranks r).written → (state.ranks r).data address = memory r address)
  gathered : ∀ events (state : RingState n), Runs size capacity memory events state → ∀ r,
    Returned (state.ranks r) → ∀ s j : Nat, s < n → j < size →
      (state.ranks r).data (s * size + j) = memory s (s * size + j)

theorem Runs.inv (run : Runs size capacity memory events state) (small : size < 2 ^ 31) :
    Inv size memory state := Inv.run small run.2

theorem Runs.working (small : size < 2 ^ 31) (run : Runs size capacity memory events state) :
    ∀ r, (state.ranks r).failed = false := by
  intro r
  rw [Bool.eq_false_iff, ne_eq, failed_iff small r run.2]
  exact run.1 _

def measure (n : Nat) [NeZero n] (size : Nat) (state : RingState n) : Nat :=
  ∑ r, (progressBound n size - progress n size (state.ranks r))

theorem measure_lt (small : size < 2 ^ 31) {next : RingState n} (inv : Inv size memory state) (works : Works event)
    (taken : step size capacity state event = some next) : measure n size next < measure n size state := by
  obtain ⟨r, further, -, others⟩ := progress_step inv small works taken
  refine sum_lt_of_one r ?_ fun r' other => by rw [others r' other]
  have := progress_le ((inv.step small taken).rank r).call
  omega

/-- A rank that has returned has every slice. -/
theorem gathered_of_returned (inv : Inv size memory state) (inRange : InRange n size)
    (returned : Returned (state.ranks r)) (inside : s < n) (bound : j < size) :
    (state.ranks r).data (s * size + j) = memory s (s * size + j) := by
  have step : stepOf n (state.ranks r) = totalSteps n := by simp [stepOf, returned.1]
  have has : s = r ∨ Received n r (state.ranks r) s j := by
    refine (got_all r inside).imp_right fun earlier => .inl ?_
    rwa [step]
  exact (inv.rank r).data inRange s j inside bound has

theorem gathers_of (small : size < 2 ^ 31) (room : 0 < capacity) (counts : Counts n size) (inRange : InRange n size) :
    Gathers n size capacity memory where
  bounded := ⟨measure n size (init memory : RingState n), fun events state run => by
    have := run.length_le (measure n size) fun run => measure_lt small (Runs.inv run small)
    omega⟩
  returns := by
    intro events state run stops r
    have working := run.working small
    refine ⟨?_, working r⟩
    by_contra unfinished
    obtain ⟨event, works, possible⟩ := exists_event (run.inv small) small room counts working unfinished
    rw [stops event works] at possible
    cases possible
  ordered := by
    intro events state run r call ring here data used
    have ok := (run.inv small).rank r
    have step : stepOf n (state.ranks r) = call.step := by simp [stepOf, here]
    rw [ok.held, step]
    exact got_send r (ok.call call here).within ring
  inside := by
    intro events state run r address
    have ok := (run.inv small).rank r
    exact ⟨ok.inside inRange address, ok.unwritten address⟩
  gathered := fun events state run r returned s j => gathered_of_returned (run.inv small) inRange returned

/-- Without a byte to transfer, no step with four transfers comes to its end. -/
theorem Runs.first_step (many : 2 < n) (run : Runs 0 capacity memory events state) :
    ∀ r, ∃ call, (state.ranks r).call = some call ∧ call.step = 0 := by
  have total : 0 < totalSteps n := by
    unfold totalSteps
    omega
  have both : isFinalUnidirectional n 0 = false := decide_eq_false fun last => by
    unfold totalSteps at last
    omega
  refine run.induction (motive := fun _ state => ∀ r, ∃ call, (state.ranks r).call = some call ∧ call.step = 0)
    (fun r => ⟨startCall 0 .sizes0, by simp [init, startStep, total], rfl⟩) ?_
  intro events state event next run first works taken
  have inv := Runs.inv run (by decide)
  have others : ∀ r rank', (∃ call, rank'.call = some call ∧ call.step = 0) →
      ∀ r', ∃ call, (update state.ranks r rank' r').call = some call ∧ call.step = 0 := fun r rank' here =>
    (forall_update_iff state.ranks fun _ rank => ∃ call, rank.call = some call ∧ call.step = 0).mpr
      ⟨here, fun r' _ => first r'⟩
  cases event with
  | fail => cases works
  | transfer r dir ring bytes =>
    obtain ⟨call, here, -, -, -, moves⟩ := transfer_cases taken
    obtain ⟨call', here', zero⟩ := first r
    rw [here] at here'
    cases here'
    cases dir with
    | send =>
      obtain ⟨-, rfl⟩ := moves
      exact others r _ ⟨_, rfl, zero⟩
    | recv =>
      obtain ⟨-, rfl⟩ := moves
      exact others r _ ⟨_, writeBytes_call _ _ _ _, zero⟩
  | ret r =>
    obtain ⟨call, here, complete, rfl⟩ := ret_cases taken
    obtain ⟨call', here', zero⟩ := first r
    rw [here] at here'
    cases here'
    have ok := (inv.rank r).call call here
    refine others r _ ?_
    rcases ok.afterCall_cases (r := r) (by decide) (ok.complete (by decide) complete) with ⟨stage, is, -⟩ | data
    · rw [is]
      exact ⟨_, rfl, zero⟩
    · rw [← zero] at both
      have counted := ok.counted data both
      simp only [isComplete, data, both] at complete
      simp [finishedOps] at counted
      simp [counted] at complete

/-- The AllGather over the sockets gathers exactly if the offsets are of type `int`, and a
slice is not empty or there are at most two ranks. -/
theorem gathers_iff (small : size < 2 ^ 31) (room : 0 < capacity) :
    (∀ memory, Gathers n size capacity memory) ↔ Counts n size ∧ InRange n size := by
  constructor
  · intro gathers
    obtain ⟨events, state, run, stops⟩ : ∃ events state, Runs (n := n) size capacity (fun _ _ => 0) events state ∧
        ∀ event, Works event → step size capacity state event = none :=
      RunsWith.exists_maximal (measure n size) fun run => measure_lt small (Runs.inv run small)
    have returned := (gathers _).returns events state run stops
    constructor
    · by_contra uncounted
      obtain ⟨many, empty⟩ := not_or.mp uncounted
      obtain rfl : size = 0 := by omega
      obtain ⟨call, here, -⟩ := run.first_step (by omega) 0
      rw [(returned 0).1] at here
      cases here
    · by_contra far
      obtain ⟨s, inside, s_pos, positive, negative⟩ := exists_negative small far
      have step : stepOf n (state.ranks 0) = totalSteps n := by simp [stepOf, (returned 0).1]
      have received : Received n (0 : Fin n) (state.ranks 0) s 0 := by
        rcases got_all (0 : Fin n) inside with own | earlier
        · simp at own
          omega
        · refine .inl ?_
          rwa [step]
      have written := ((run.inv small).rank 0).wrote s 0 positive received
      have := (((gathers _).inside events state run 0 _).1 written).1
      omega
  · rintro ⟨counts, inRange⟩ memory
    exact gathers_of small room counts inRange

end NcclCore.BootstrapGatherProofs
