import NcclCore.BootstrapGatherProofs

/-! The AllGather over the network plugin gathers whatever the number and the size of the
slices are. -/
namespace NcclCore.BootstrapNetProofs
open Lib NetGather Function List
open RingGather (sendSliceRing0 recvSliceRing0)
open BootstrapRingProofs (slice_send_zero slice_send_succ slice_source unwritten_store inside_store data_store)

section
variable {n size : Nat} {memory : Nat → Int → Nat} {r : Nat} {rank : NetRank}

def sentCount (rank : NetRank) : Nat := rank.round + if rank.doneSend then 1 else 0

def recvCount (rank : NetRank) : Nat := rank.round + if rank.doneRecv then 1 else 0

/-- A slice that came in. -/
def Received (n r : Nat) (rank : NetRank) (s : Nat) : Prop := ∃ t < recvCount rank, s = recvSliceRing0 n r t

/-- A rank, with the slices that it has so far. -/
structure RankOk (n size : Nat) (memory : Nat → Int → Nat) (r : Nat) (rank : NetRank) : Prop where
  within : rank.round ≤ n - 1
  idle : rank.round = n - 1 → rank.doneSend = false ∧ rank.doneRecv = false
  data : ∀ s j : Nat, s < n → j < size → s = r ∨ Received n r rank s →
    rank.data (s * size + j) = memory s (s * size + j)
  unwritten : ∀ address, address ∉ rank.written → rank.data address = memory r address
  inside : ∀ address ∈ rank.written, 0 ≤ address ∧ address < n * size
  held : ∀ s, s ∈ rank.held ↔ s = r ∨ ∃ t < rank.round, s = recvSliceRing0 n r t

/-- The message of a round, as the sender means it. -/
def message (n size : Nat) (memory : Nat → Int → Nat) (r round : Nat) : Nat × List Nat :=
  (round, (range size).map fun (j : Nat) =>
    memory (sendSliceRing0 n r round) (sendSliceRing0 n r round * size + j))

/-- How far a rank has come. -/
def progress (rank : NetRank) : Nat := rank.round + (sentCount rank + recvCount rank)

theorem RankOk.progress_le (ok : RankOk n size memory r rank) : progress rank ≤ 3 * n := by
  have within := ok.within
  have idle := ok.idle
  unfold progress sentCount recvCount
  rcases within.lt_or_eq with before | last
  · split <;> split <;> omega
  · obtain ⟨sent, recvd⟩ := idle last
    simp only [sent, recvd, Bool.false_eq_true, if_false]
    omega

end

section
variable {n size capacity : Nat} {state next : NetState n}
variable {r : Fin n}

theorem isend_cases (taken : isend size capacity state r = some next) :
    running n (state.ranks r) ∧ (state.ranks r).doneSend = false ∧ (state.channels r).length < capacity ∧
      next = ⟨update state.ranks r { state.ranks r with doneSend := true },
        update state.channels r (state.channels r ++ [((state.ranks r).round, (range size).map
          fun (j : Nat) => (state.ranks r).data (sendSliceRing0 n r (state.ranks r).round * size + j))])⟩ := by
  obtain ⟨⟨runs, undone, space⟩, rfl⟩ := of_ite_some taken
  exact ⟨runs, undone, space, rfl⟩

theorem ret_cases (taken : NetGather.ret state r = some next) :
    running n (state.ranks r) ∧ (state.ranks r).doneSend = true ∧ (state.ranks r).doneRecv = true ∧
      next = ⟨update state.ranks r { state.ranks r with
          round := (state.ranks r).round + 1
          doneSend := false
          doneRecv := false
          held := (state.ranks r).held ++ [recvSliceRing0 n r (state.ranks r).round] }, state.channels⟩ := by
  obtain ⟨⟨runs, sent, recvd⟩, rfl⟩ := of_ite_some taken
  exact ⟨runs, sent, recvd, rfl⟩

theorem fail_cases (taken : NetGather.fail state r = some next) :
    next = ⟨update state.ranks r { state.ranks r with failed := true }, state.channels⟩ :=
  (of_ite_some taken).2

theorem round_lt (runs : running n rank) : rank.round < n - 1 := (of_decide_eq_true runs).1

end

section
variable {n : Nat} [NeZero n] {size capacity : Nat} {state next : NetState n} {memory : Nat → Int → Nat}

def sentAt (ranks : Fin n → NetRank) (chan : Fin n) : Nat := sentCount (ranks chan)

def rcvdAt (ranks : Fin n → NetRank) (chan : Fin n) : Nat := recvCount (ranks (chan + 1))

structure Inv (size : Nat) (memory : Nat → Int → Nat) (state : NetState n) : Prop where
  rank : ∀ r : Fin n, RankOk n size memory r (state.ranks r)
  carries : Carries (fun (chan : Fin n) i msg => msg = message n size memory chan i)
    (sentAt state.ranks) (rcvdAt state.ranks)
    state.channels

theorem Inv.rank_update (inv : Inv size memory state) {r : Fin n} {rank : NetRank} (ok : RankOk n size memory r rank)
    (r' : Fin n) : RankOk n size memory r' (update state.ranks r rank r') :=
  (forall_update_iff state.ranks fun r' rank => RankOk n size memory r' rank).mpr ⟨ok, fun r' _ => inv.rank r'⟩ r'

omit [NeZero n] in
theorem sentAt_update (ranks : Fin n → NetRank) (r : Fin n) (more : Nat)
    (sends : sentCount rank = sentCount (ranks r) + more) (chan : Fin n) :
    sentAt (update ranks r rank) chan = sentAt ranks chan + if chan = r then more else 0 := by
  by_cases here : chan = r
  · subst here
    simp [sentAt, sends]
  · simp [sentAt, here]

theorem rcvdAt_update (ranks : Fin n → NetRank) (r : Fin n) (more : Nat)
    (recvs : recvCount rank = recvCount (ranks r) + more) (chan : Fin n) :
    rcvdAt (update ranks r rank) chan = rcvdAt ranks chan + if chan = r - 1 then more else 0 := by
  by_cases here : chan = r - 1
  · subst here
    simp [rcvdAt, recvs]
  · have other : chan + 1 ≠ r := fun same => here (eq_sub_of_add_eq same)
    simp [rcvdAt, here, other]

/-- A rank changes, with all counts as they are. -/
theorem Inv.quiet (inv : Inv size memory state) (r : Fin n) (rank : NetRank) (ok : RankOk n size memory r rank)
    (sends : sentCount rank = sentCount (state.ranks r)) (recvs : recvCount rank = recvCount (state.ranks r)) :
    Inv size memory ⟨update state.ranks r rank, state.channels⟩ := by
  have sends' : sentAt (update state.ranks r rank) = sentAt state.ranks :=
    funext fun chan => by simp [sentAt_update state.ranks r 0 (show _ = _ + 0 from sends)]
  have recvs' : rcvdAt (update state.ranks r rank) = rcvdAt state.ranks :=
    funext fun chan => by simp [rcvdAt_update state.ranks r 0 (show _ = _ + 0 from recvs)]
  exact ⟨inv.rank_update ok, by rw [sends', recvs']; exact inv.carries⟩

variable {r : Fin n}

theorem irecv_cases (taken : irecv size state r = some next) :
    running n (state.ranks r) ∧ (state.ranks r).doneRecv = false ∧
      ∃ bytes rest, state.channels (r - 1) = ((state.ranks r).round, bytes) :: rest ∧
        next = ⟨update state.ranks r { state.ranks r with
            doneRecv := true
            data := storeBytes (state.ranks r).data (recvSliceRing0 n r (state.ranks r).round * size) bytes
            written := (state.ranks r).written ++ (range bytes.length).map fun (j : Nat) =>
              (recvSliceRing0 n r (state.ranks r).round * size + j : Int) },
          update state.channels (r - 1) rest⟩ := by
  simp only [irecv] at taken
  split at taken
  next => cases taken
  next tag bytes rest there =>
    obtain ⟨⟨runs, undone, rfl⟩, rfl⟩ := of_ite_some taken
    exact ⟨runs, undone, bytes, rest, there, rfl⟩

theorem Inv.isend (inv : Inv size memory state) (taken : NetGather.isend size capacity state r = some next) :
    Inv size memory next := by
  obtain ⟨runs, undone, -, rfl⟩ := isend_cases taken
  have ok := inv.rank r
  have before := round_lt runs
  have count : sentCount (state.ranks r) = (state.ranks r).round := by simp [sentCount, undone]
  refine ⟨inv.rank_update
      ⟨ok.within, fun last => by simp only at last; omega, ok.data, ok.unwritten, ok.inside, ok.held⟩,
    inv.carries.append r _ (sentAt_update _ r 1 (by simp [sentCount, undone]))
      (fun chan => (rcvdAt_update _ r 0 (by rfl) chan).trans (by simp)) fun i msg there => ?_⟩
  obtain ⟨zero, is⟩ := List.getElem?_eq_some_iff.mp there
  obtain rfl : i = 0 := by simpa using zero
  rw [sentAt, count, ← is]
  refine Prod.ext rfl (map_congr_left fun j member => ?_)
  refine ok.data _ j (Nat.mod_lt _ (NeZero.pos n)) (mem_range.mp member) ?_
  cases is : (state.ranks r).round with
  | zero => exact .inl (slice_send_zero r .ring0)
  | succ round =>
    refine .inr ⟨round, ?_, slice_send_succ r round .ring0⟩
    unfold recvCount
    omega

/-- A slice that comes in is its owner's. -/
theorem RankOk.irecv (ok : RankOk n size memory r rank) (before : rank.round < n - 1) (undone : rank.doneRecv = false)
    (owned : bytes = (message n size memory (r - 1 : Fin n) rank.round).2) :
    RankOk n size memory r { rank with
      doneRecv := true
      data := storeBytes rank.data (recvSliceRing0 n r rank.round * size) bytes
      written := rank.written ++ (range bytes.length).map fun (j : Nat) =>
        (recvSliceRing0 n r rank.round * size + j : Int) } := by
  have same : sendSliceRing0 n (r - 1 : Fin n) rank.round = recvSliceRing0 n r rank.round :=
    slice_source r (by omega) .ring0
  have length : bytes.length = size := by simp [owned, message]
  have at_ : ∀ i byte : Nat, bytes[i]? = some byte → i < size ∧
      byte = memory (recvSliceRing0 n r rank.round) (recvSliceRing0 n r rank.round * size + i) := by
    intro i byte there
    rw [owned, message, same] at there
    obtain ⟨below, is⟩ := getElem?_map_range.mp there
    exact ⟨below, is.symm⟩
  have placed : (recvSliceRing0 n r rank.round * size : Int) =
      recvSliceRing0 n r rank.round * size + (0 : Nat) := by simp
  refine ⟨ok.within, fun last => by simp only at last; omega, fun s j s_lt j_lt has => ?_, unwritten_store ok.unwritten,
    inside_store ok.inside (Nat.mod_lt _ (NeZero.pos n)) (by omega) placed, ok.held⟩
  refine data_store (by omega) placed (fun i byte there => (at_ i byte there).2) j_lt fun elsewhere => ?_
  refine ok.data s j s_lt j_lt (has.imp_right ?_)
  rintro ⟨t, earlier, is⟩
  rcases Nat.lt_succ_iff_lt_or_eq.mp earlier with earlier | rfl
  · exact ⟨t, by simp [recvCount, undone, earlier], is⟩
  · exact absurd ⟨is, Nat.zero_le _, by omega⟩ elsewhere

theorem Inv.irecv (inv : Inv size memory state) (taken : NetGather.irecv size state r = some next) :
    Inv size memory next := by
  obtain ⟨runs, undone, bytes, rest, there, rfl⟩ := irecv_cases taken
  have ok := inv.rank r
  have count : recvCount (state.ranks r) = (state.ranks r).round := by simp [recvCount, undone]
  have owned : bytes = (message n size memory (r - 1 : Fin n) (state.ranks r).round).2 := by
    have first := inv.carries.right (r - 1) 0 ((state.ranks r).round, bytes) (by rw [there]; rfl)
    rw [rcvdAt, sub_add_cancel, count, add_zero] at first
    rw [← first]
  have some_ : 1 ≤ (state.channels (r - 1)).length := by simp [there]
  obtain rfl : rest = (state.channels (r - 1)).drop 1 := by simp [there]
  exact ⟨inv.rank_update (ok.irecv (round_lt runs) undone owned), inv.carries.drop (r - 1) 1 some_
    (fun chan => (sentAt_update _ r 0 (by rfl) chan).trans (by simp))
    (rcvdAt_update _ r 1 (by simp [recvCount, undone]))⟩

theorem Inv.step (inv : Inv size memory state) (taken : NetGather.step size capacity state event = some next) :
    Inv size memory next := by
  cases event with
  | isend => exact inv.isend taken
  | irecv => exact inv.irecv taken
  | ret r =>
    obtain ⟨runs, sent, recvd, rfl⟩ := ret_cases taken
    have ok := inv.rank r
    have before := round_lt runs
    refine inv.quiet r _ ⟨?_, fun _ => ⟨rfl, rfl⟩, fun s j s_lt j_lt has => ?_, ok.unwritten,
      ok.inside, fun s => ?_⟩ ?_ ?_
    · simp only
      omega
    · refine ok.data s j s_lt j_lt (has.imp_right ?_)
      rintro ⟨t, earlier, is⟩
      exact ⟨t, by simpa [recvCount, recvd] using earlier, is⟩
    · simp only [mem_append, mem_singleton, ok.held s]
      constructor
      · rintro ((own | ⟨t, earlier, is⟩) | is)
        · exact .inl own
        · exact .inr ⟨t, by omega, is⟩
        · exact .inr ⟨_, lt_add_one _, is⟩
      · rintro (own | ⟨t, earlier, is⟩)
        · exact .inl (.inl own)
        · rcases Nat.lt_succ_iff_lt_or_eq.mp earlier with earlier | rfl
          · exact .inl (.inr ⟨t, earlier, is⟩)
          · exact .inr is
    · simp [sentCount, sent]
    · simp [recvCount, recvd]
  | fail r =>
    obtain rfl := fail_cases taken
    exact inv.quiet r _ { inv.rank r with } rfl rfl

theorem inv_init (size : Nat) (memory : Nat → Int → Nat) : Inv size memory (init memory : NetState n) where
  rank := fun r => by
    refine ⟨Nat.zero_le _, fun _ => ⟨rfl, rfl⟩, ?_, fun _ _ => rfl, fun _ member => (nomatch member), ?_⟩
    · rintro s j s_lt j_lt (rfl | ⟨t, earlier, -⟩)
      · rfl
      · simp [recvCount, init] at earlier
    · simp [init]
  carries := ⟨fun _ => rfl, fun r i msg there => by simp [init] at there⟩

theorem Inv.run {events : List (NetEvent n)}
    (run : events.foldlM (NetGather.step size capacity) (init memory) = some state) : Inv size memory state :=
  foldlM_invariant run (inv_init size memory) fun inv taken => inv.step taken

end

variable {n : Nat} [NeZero n] {size capacity : Nat} {state next : NetState n} {memory : Nat → Int → Nat}

def net (n : Nat) [NeZero n] : Streams (Fin n) (Fin n) := ⟨id, (· + 1)⟩

theorem paced (state : NetState n) :
    (net n).Paced (fun _ round => round) (fun r => (state.ranks r).round) (sentAt state.ranks)
      (rcvdAt state.ranks) where
  sent_low := fun _ => le_self_add
  rcvd_low := fun _ => le_self_add

/-- An event that is no failure. -/
def Works : NetEvent n → Prop
  | .fail _ => False
  | _ => True

theorem done_of_le : (rank.round + 1 ≤ sentCount rank → rank.doneSend = true) ∧
    (rank.round + 1 ≤ recvCount rank → rank.doneRecv = true) := by
  cases sends : rank.doneSend <;> cases recvs : rank.doneRecv <;> simp [sentCount, recvCount, sends, recvs]

theorem undone_of_lt : (sentCount rank < rank.round + 1 → rank.doneSend = false) ∧
    (recvCount rank < rank.round + 1 → rank.doneRecv = false) := by
  cases sends : rank.doneSend <;> cases recvs : rank.doneRecv <;> simp [sentCount, recvCount, sends, recvs]

/-- While a rank has not returned, something can happen. -/
theorem Inv.exists_event (inv : Inv size memory state) (room : 0 < capacity)
    (working : ∀ r, (state.ranks r).failed = false) (unfinished : (state.ranks r).round < n - 1) :
    ∃ event, Works event ∧ (NetGather.step size capacity state event).isSome := by
  have runs : ∀ p, (state.ranks p).round < n - 1 → running n (state.ranks p) := fun p before =>
    decide_eq_true ⟨before, working p⟩
  rcases (paced state).exists_step (fun _ => monotone_id) room unfinished with
    ⟨p, before, sends, recvs⟩ | ⟨p, before, missing, fits⟩ | ⟨p, before, missing, there⟩
  · refine ⟨.ret p, trivial, ?_⟩
    have sent := done_of_le.1 (sends p rfl)
    have recvd : (state.ranks p).doneRecv = true := by
      have := recvs (p - 1) (sub_add_cancel p 1)
      rw [rcvdAt, sub_add_cancel] at this
      exact done_of_le.2 this
    simp [NetGather.step, NetGather.ret, runs p before, sent, recvd]
  · refine ⟨.isend p, trivial, ?_⟩
    have length := inv.carries.length p
    have space : (state.channels p).length < capacity := by omega
    simp [NetGather.step, NetGather.isend, runs p before, undone_of_lt.1 missing, space]
  · refine ⟨.irecv (p + 1), trivial, ?_⟩
    have length := inv.carries.length p
    have undone := undone_of_lt.2 missing
    cases channel : state.channels p with
    | nil =>
      rw [channel, length_nil] at length
      omega
    | cons msg rest =>
      obtain ⟨tag, bytes⟩ := msg
      have first := congrArg Prod.fst (inv.carries.right p 0 (tag, bytes) (by rw [channel]; rfl))
      have tagged : tag = (state.ranks (p + 1)).round := by
        simpa [message, rcvdAt, recvCount, undone] using first
      simp [NetGather.step, NetGather.irecv, channel, runs (p + 1) before, undone, tagged]

theorem progress_step (works : Works event) (taken : NetGather.step size capacity state event = some next) :
    ∃ r, progress (state.ranks r) < progress (next.ranks r) ∧
      (next.ranks r).failed = (state.ranks r).failed ∧ ∀ r', r' ≠ r → next.ranks r' = state.ranks r' := by
  cases event with
  | fail => cases works
  | isend r =>
    obtain ⟨-, undone, -, rfl⟩ := isend_cases taken
    refine ⟨r, ?_, ?_, fun r' other => update_of_ne other _ _⟩
    · simp [progress, sentCount, recvCount, undone]
    · simp
  | irecv r =>
    obtain ⟨-, undone, bytes, rest, -, rfl⟩ := irecv_cases taken
    refine ⟨r, ?_, ?_, fun r' other => update_of_ne other _ _⟩
    · simp [progress, sentCount, recvCount, undone]
    · simp [update_self]
  | ret r =>
    obtain ⟨-, sent, recvd, rfl⟩ := ret_cases taken
    refine ⟨r, ?_, ?_, fun r' other => update_of_ne other _ _⟩
    · simp [progress, sentCount, recvCount, sent, recvd]
    · simp

/-- A rank has failed if one of its calls has. -/
theorem failed_iff {events : List (NetEvent n)} (r : Fin n)
    (run : events.foldlM (NetGather.step size capacity) (init memory) = some state) :
    (state.ranks r).failed = true ↔ .fail r ∈ events := by
  refine foldlM_set_iff (fun state => (state.ranks r).failed = true) Bool.false_ne_true
    (fun {_ state event next} _ taken => ?_) run
  have kept (works : Works event) : (next.ranks r).failed = (state.ranks r).failed := by
    obtain ⟨moved, -, failed, others⟩ := progress_step works taken
    by_cases here : r = moved
    · rw [here, failed]
    · rw [others r here]
  cases event with
  | fail p =>
    obtain rfl := fail_cases taken
    by_cases here : p = r
    · simp [here]
    · simp [here, Ne.symm here]
  | _ => simp [kept trivial]

/-- A run of all ranks in which no call fails. -/
def Runs (size capacity : Nat) (memory : Nat → Int → Nat) (events : List (NetEvent n)) (state : NetState n) : Prop :=
  RunsWith (NetGather.step size capacity) Works (init memory) events state

/-- The rank has returned `ncclSuccess`. -/
def Returned (n : Nat) (rank : NetRank) : Prop := rank.round = n - 1 ∧ rank.failed = false

/-- All calls return, and each rank has every slice then; a slice is sent when it is there,
and nothing is written outside of the slices. -/
structure Gathers (n : Nat) [NeZero n] (size capacity : Nat) (memory : Nat → Int → Nat) : Prop where
  bounded : ∃ bound, ∀ events (state : NetState n), Runs size capacity memory events state → events.length ≤ bound
  returns : ∀ events (state : NetState n), Runs size capacity memory events state →
    (∀ event, Works event → NetGather.step size capacity state event = none) → ∀ r, Returned n (state.ranks r)
  ordered : ∀ events (state : NetState n), Runs size capacity memory events state → ∀ r : Fin n,
    sendSliceRing0 n r (state.ranks r).round ∈ (state.ranks r).held
  inside : ∀ events (state : NetState n), Runs size capacity memory events state → ∀ r, ∀ address : Int,
    (address ∈ (state.ranks r).written → 0 ≤ address ∧ address < n * size) ∧
      (address ∉ (state.ranks r).written → (state.ranks r).data address = memory r address)
  gathered : ∀ events (state : NetState n), Runs size capacity memory events state → ∀ r,
    Returned n (state.ranks r) → ∀ s j : Nat, s < n → j < size →
      (state.ranks r).data (s * size + j) = memory s (s * size + j)

theorem Runs.inv (run : Runs size capacity memory events state) : Inv size memory state := Inv.run run.2

theorem Runs.working (run : Runs size capacity memory events state) : ∀ r, (state.ranks r).failed = false := by
  intro r
  rw [Bool.eq_false_iff, ne_eq, failed_iff r run.2]
  exact run.1 _

def measure (state : NetState n) : Nat := ∑ r, (3 * n - progress (state.ranks r))

theorem measure_lt (inv : Inv size memory state) (works : Works event)
    (taken : NetGather.step size capacity state event = some next) : measure next < measure state := by
  obtain ⟨r, further, -, others⟩ := progress_step works taken
  refine sum_lt_of_one r ?_ fun r' other => by rw [others r' other]
  have := ((inv.step taken).rank r).progress_le
  omega

omit [NeZero n] in
theorem slice_cases (inside : r < n) (inside' : s < n) : s = r ∨ ∃ t < n - 1, s = recvSliceRing0 n r t := by
  rcases lt_trichotomy s r with before | rfl | behind
  · refine .inr ⟨r - s - 1, by omega, ?_⟩
    rw [recvSliceRing0, show r + n - (r - s - 1) - 1 = s + n by omega, Nat.add_mod_right, Nat.mod_eq_of_lt inside']
  · exact .inl rfl
  · refine .inr ⟨r + n - s - 1, by omega, ?_⟩
    rw [recvSliceRing0, show r + n - (r + n - s - 1) - 1 = s by omega, Nat.mod_eq_of_lt inside']

theorem gathered_of_returned (inv : Inv size memory state) (returned : Returned n (state.ranks r)) (inside : s < n)
    (bound : j < size) : (state.ranks r).data (s * size + j) = memory s (s * size + j) := by
  refine (inv.rank r).data s j inside bound ((slice_cases r.isLt inside).imp_right fun ⟨t, before, is⟩ => ⟨t, ?_, is⟩)
  rw [← returned.1] at before
  exact Nat.lt_add_right _ before

/-- The AllGather over the network gathers. -/
theorem gathers (room : 0 < capacity) : Gathers n size capacity memory where
  bounded := ⟨measure (init memory : NetState n), fun events state run => by
    have := run.length_le measure fun run => measure_lt (Runs.inv run)
    omega⟩
  returns := by
    intro events state run stops r
    have working := run.working
    refine ⟨?_, working r⟩
    by_contra unfinished
    have within := (run.inv.rank r).within
    obtain ⟨event, works, possible⟩ := run.inv.exists_event room working (r := r) (by omega)
    rw [stops event works] at possible
    cases possible
  ordered := by
    intro events state run r
    rw [(run.inv.rank r).held]
    cases is : (state.ranks r).round with
    | zero => exact .inl (slice_send_zero r .ring0)
    | succ round => exact .inr ⟨round, lt_add_one _, slice_send_succ r round .ring0⟩
  inside := fun events state run r address => ⟨(run.inv.rank r).inside address, (run.inv.rank r).unwritten address⟩
  gathered := fun events state run r returned s j => gathered_of_returned run.inv returned

end NcclCore.BootstrapNetProofs
