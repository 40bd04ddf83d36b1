import Mathlib.Algebra.Group.Fin.Basic
import NcclCore.BootstrapRing
import NcclCore.Lib.Streams
import NcclCore.Lib.Runs
import NcclCore.Lib.Digits

/-! The AllGather over the sockets of the bootstrap ring. -/
namespace NcclCore.BootstrapRingProofs
open Lib RingGather Function List

section
variable {n : Nat}

theorem slice_lt [NeZero n] (rank step : Nat) (dir : SocketDir) (ring : Ring) : slice n rank step dir ring < n := by
  have positive : 0 < n := Nat.pos_of_ne_zero (NeZero.ne n)
  cases dir <;> cases ring <;> exact Nat.mod_lt _ positive

/-- A rank begins with its own slice. -/
theorem slice_send_zero (rank : Fin n) (ring : Ring) : slice n rank 0 .send ring = rank := by
  cases ring with
  | ring0 =>
    rw [slice, sendSliceRing0, Nat.sub_zero, Nat.add_mod_right, Nat.mod_eq_of_lt rank.isLt]
  | ring1 => rw [slice, sendSliceRing1, add_zero, Nat.mod_eq_of_lt rank.isLt]

/-- What is sent was received in the step before. -/
theorem slice_send_succ (rank step : Nat) (ring : Ring) :
    slice n rank (step + 1) .send ring = slice n rank step .recv ring := by
  cases ring with
  | ring0 =>
    rw [slice, slice, sendSliceRing0, recvSliceRing0, Nat.sub_add_eq]
  | ring1 => rw [slice, slice, sendSliceRing1, recvSliceRing1, add_assoc]

theorem val_sub_one [NeZero n] (rank : Fin n) : (rank - 1).val = (rank.val + n - 1) % n := by
  have bound := rank.isLt
  rw [Fin.sub_def]
  simp only [Fin.val_one']
  rcases lt_or_ge 1 n with several | one
  · rw [Nat.mod_eq_of_lt several]
    congr 1
    omega
  · obtain rfl : n = 1 := by omega
    omega

/-- What is received is what the neighbour sends. -/
theorem slice_source [NeZero n] (rank : Fin n) {step : Nat} (within : step < n) (ring : Ring) :
    slice n (source rank ring) step .send ring = slice n rank step .recv ring := by
  cases ring with
  | ring0 =>
    simp only [slice, source, sendSliceRing0, recvSliceRing0, val_sub_one]
    rcases eq_zero_or_pos rank.val with zero | positive
    · rw [zero, zero_add, Nat.mod_eq_of_lt (show n - 1 < n by omega), show n - 1 + n - step = n - step - 1 + n by omega,
        Nat.add_mod_right]
    · rw [show rank.val + n - 1 = rank.val - 1 + n by omega, Nat.add_mod_right,
        Nat.mod_eq_of_lt (show rank.val - 1 < n by omega)]
      congr 1
      omega
  | ring1 =>
    simp only [slice, source, sendSliceRing1, recvSliceRing1, Fin.val_add, Fin.val_one', Nat.add_mod_mod]
    rw [Nat.mod_add_mod]
    congr 1
    omega

@[simp] theorem dest_source [NeZero n] (rank : Fin n) (ring : Ring) : dest (source rank ring) ring = rank := by
  cases ring <;> simp [dest, source]

@[simp] theorem source_dest [NeZero n] (rank : Fin n) (ring : Ring) : source (dest rank ring) ring = rank := by
  cases ring <;> simp [dest, source]

theorem uses_data_iff (step : Nat) (ring : Ring) :
    uses n step .data ring ↔ ring = .ring0 ∨ ¬ (step = totalSteps n - 1 ∧ n % 2 = 0) := by
  simp [uses, isFinalUnidirectional, imp_iff_not_or]

/-- A slice that a rank has before a step. -/
def Got (n rank step s : Nat) : Prop :=
  s = rank ∨ ∃ t < step, ∃ ring, uses n t .data ring ∧ s = slice n rank t .recv ring

/-- A rank has what it sends. -/
theorem got_send (rank : Fin n) {step : Nat} (within : step < totalSteps n) (ring : Ring) :
    Got n rank step (slice n rank step .send ring) := by
  cases step with
  | zero => exact .inl (slice_send_zero rank ring)
  | succ step =>
    refine .inr ⟨step, lt_add_one _, ring, ?_, slice_send_succ _ _ _⟩
    rw [uses_data_iff]
    exact .inr (by omega)

/-- At the end a rank has every slice. -/
theorem got_all (rank : Fin n) (inside : s < n) : Got n rank (totalSteps n) s := by
  have bound := rank.isLt
  -- the distance from the rank to the slice decides the ring and the step
  obtain ⟨d, d_lt, is⟩ : ∃ d < n, s = (rank.val + d) % n := by
    rcases lt_or_ge s rank.val with before | behind
    · refine ⟨n + s - rank.val, by omega, ?_⟩
      rw [show rank.val + (n + s - rank.val) = s + n by omega, Nat.add_mod_right, Nat.mod_eq_of_lt inside]
    · refine ⟨s - rank.val, by omega, ?_⟩
      rw [show rank.val + (s - rank.val) = s by omega, Nat.mod_eq_of_lt inside]
  rcases eq_zero_or_pos d with rfl | positive
  · exact .inl (by rw [is, add_zero, Nat.mod_eq_of_lt bound])
  right
  have half : totalSteps n = n / 2 := rfl
  by_cases near : d + d < n
  · refine ⟨d - 1, by omega, .ring1, ?_, ?_⟩
    · rw [uses_data_iff]
      exact .inr (by omega)
    · rw [is]
      congr 1
      omega
  · refine ⟨n - 1 - d, by omega, .ring0, ?_, ?_⟩
    · rw [uses_data_iff]
      exact .inl rfl
    · rw [is]
      congr 1
      omega

end

section
variable (n size : Nat)

/-- The bytes of a step on a ring in the calls before a stage. -/
def stageBase (step : Nat) : RingStage → Ring → Nat
  | .sizes0, _ => 0
  | .sizes1, .ring0 => 4
  | .sizes1, .ring1 => 0
  | .data, ring => if uses n step .data ring then 4 else 0

/-- The bytes of a transfer in a stage. -/
def amount : RingStage → Nat
  | .data => size
  | _ => 4

/-- The steps with data on a ring. -/
def lastStep : Ring → Nat
  | .ring0 => totalSteps n
  | .ring1 => if n % 2 = 0 then totalSteps n - 1 else totalSteps n

def stepOf (rank : GatherRank) : Nat :=
  match rank.call with
  | some call => call.step
  | none => totalSteps n

/-- The bytes that one end of a ring has moved in the step. -/
def inStep (rank : GatherRank) (dir : SocketDir) (ring : Ring) : Nat :=
  match rank.call with
  | some call => stageBase n call.step call.stage ring + call.offset dir ring
  | none => 0

/-- The bytes that one end of a ring has moved. -/
def pos (rank : GatherRank) (dir : SocketDir) (ring : Ring) : Nat :=
  match rank.call with
  | some call => call.step * (4 + size) + inStep n rank dir ring
  | none => lastStep n ring * (4 + size)

/-- A byte of a slice that a rank has received. -/
def Received (r : Nat) (rank : GatherRank) (s j : Nat) : Prop :=
  (∃ t < stepOf n rank, ∃ ring, uses n t .data ring ∧ s = slice n r t .recv ring) ∨
    ∃ ring, uses n (stepOf n rank) .data ring ∧ s = slice n r (stepOf n rank) .recv ring ∧
      4 + j < inStep n rank .recv ring

/-- The transfers of the data that have come to their end. -/
def finishedOps (call : RingCall) : Nat :=
  let ended := fun dir ring => if 0 < size ∧ size ≤ call.offset dir ring then 1 else 0
  ended .send .ring0 + ended .recv .ring0 + ended .send .ring1 + ended .recv .ring1

/-- A call with its transfers. -/
structure CallOk (rank : GatherRank) (call : RingCall) : Prop where
  within : call.step < totalSteps n
  both : call.stage = .sizes1 → isFinalUnidirectional n call.step = false
  offsets : ∀ dir ring, call.offset dir ring ≤ if uses n call.step call.stage ring then amount size call.stage else 0
  sizes : ∀ ring (j : Nat), j < min 4 (stageBase n call.step call.stage ring + call.offset .recv ring) →
    rank.senderRecvSize ring j = intByte size j
  counted : call.stage = .data → isFinalUnidirectional n call.step = false → call.completedOps = finishedOps size call

/-- All slices have offsets of type `int`. -/
def InRange : Prop := (n - 1) * size < 2 ^ 31

/-- A rank, with the data that it has so far. -/
structure RankOk (memory : Nat → Int → Nat) (r : Nat) (rank : GatherRank) : Prop where
  call : ∀ call, rank.call = some call → CallOk n size rank call
  data : InRange n size → ∀ s j : Nat, s < n → j < size → s = r ∨ Received n r rank s j →
    rank.data (s * size + j) = memory s (s * size + j)
  unwritten : ∀ address, address ∉ rank.written → rank.data address = memory r address
  wrote : ∀ s j : Nat, j < size → Received n r rank s j → sliceAddr size s + j ∈ rank.written
  inside : InRange n size → ∀ address ∈ rank.written, 0 ≤ address ∧ address < n * size
  held : ∀ s, s ∈ rank.held ↔ Got n r (stepOf n rank) s

/-- The byte at a position of a stream. -/
def Right (memory : Nat → Int → Nat) (r : Nat) (ring : Ring) (k byte : Nat) : Prop :=
  (k % (4 + size) < 4 → byte = intByte size (k % (4 + size))) ∧
    (InRange n size → 4 ≤ k % (4 + size) →
      byte = memory (slice n r (k / (4 + size)) .send ring)
        (slice n r (k / (4 + size)) .send ring * size + (k % (4 + size) - 4 : Nat)))

end

section
variable {n size : Nat}

theorem intOfBytes_of_sizes (small : size < 2 ^ 31) (sizes : ∀ j : Nat, j < 4 → bytes j = intByte size j) :
    intOfBytes bytes = size := by
  have b0 := sizes 0 (by decide)
  have b1 := sizes 1 (by decide)
  have b2 := sizes 2 (by decide)
  have b3 := sizes 3 (by decide)
  simp only [Nat.cast_zero, Nat.cast_one, Nat.cast_ofNat] at b0 b1 b2 b3
  have joined : bytes 0 + 256 * bytes 1 + 256 ^ 2 * bytes 2 + 256 ^ 3 * bytes 3 = size := by
    rw [b0, b1, b2, b3]
    simp only [intByte]
    omega
  exact (congrArg (fun x : Nat => Int.bmod x (2 ^ 32)) joined).trans (bmod_of_small small)

/-- In range, a slice is where it belongs. -/
theorem sliceAddr_of_inRange (inRange : InRange n size) (inside : s < n) : sliceAddr size s = s * size := by
  have bound : s * size ≤ (n - 1) * size := Nat.mul_le_mul_right _ (by omega)
  have whole := bmod_of_small (bound.trans_lt inRange)
  exact whole

theorem storeBytes_apply (memory : Int → Nat) (start address : Int) (bytes : List Nat) :
    (∃ i : Nat, address = start + i ∧ bytes[i]? = some (storeBytes memory start bytes address)) ∨
      ((∀ i : Nat, i < bytes.length → address ≠ start + i) ∧
        storeBytes memory start bytes address = memory address) := by
  rw [storeBytes]
  by_cases before : start ≤ address
  · rw [if_pos before]
    cases here : bytes[(address - start).toNat]? with
    | some =>
      exact .inl ⟨(address - start).toNat, by omega, by rw [here, Option.getD_some]⟩
    | none =>
      refine .inr ⟨fun i inside is => ?_, by rw [Option.getD_none]⟩
      have := getElem?_eq_none_iff.mp here
      omega
  · rw [if_neg before]
    exact .inr ⟨fun i _ is => by omega, rfl⟩

variable {memory : Nat → Int → Nat} {data own : Int → Nat} {written : List Int} {start : Int} {slice offset : Nat}

theorem unwritten_store (unwritten : ∀ address, address ∉ written → data address = own address) (address : Int)
    (absent : address ∉ written ++ (range bytes.length).map fun (j : Nat) => start + j) :
    storeBytes data start bytes address = own address := by
  rw [mem_append, not_or] at absent
  rcases storeBytes_apply data start address bytes with ⟨i, is, byte⟩ | ⟨-, unchanged⟩
  · have inside := List.mem_range.mpr (List.getElem?_eq_some_iff.mp byte).1
    exact absurd (mem_map.mpr ⟨i, inside, is.symm⟩) absent.2
  · rw [unchanged, unwritten address absent.1]

theorem inside_store {count : Nat} (inside : ∀ address ∈ written, 0 ≤ address ∧ address < n * size)
    (isSlice : slice < n) (fits : offset + count ≤ size) (placed : start = slice * size + offset) (address : Int)
    (member : address ∈ written ++ (range count).map fun (j : Nat) => start + j) :
    0 ≤ address ∧ address < n * size := by
  rcases mem_append.mp member with before | new
  · exact inside address before
  · obtain ⟨i, i_mem, rfl⟩ := mem_map.mp new
    have i_lt := mem_range.mp i_mem
    have last := digits_lt isSlice (show offset + i < size by omega)
    omega

/-- A part of a slice that is stored is the owner's, and the other parts stay. -/
theorem data_store (fits : offset + bytes.length ≤ size) (placed : start = slice * size + offset)
    (owned : ∀ i byte : Nat, bytes[i]? = some byte → byte = memory slice (start + i)) (bound : j < size)
    (before : ¬ (s = slice ∧ offset ≤ j ∧ j < offset + bytes.length) → data (s * size + j) = memory s (s * size + j)) :
    storeBytes data start bytes (s * size + j) = memory s (s * size + j) := by
  rcases storeBytes_apply data start (s * size + j) bytes with ⟨i, place, byte⟩ | ⟨outside, unchanged⟩
  · have i_lt := (List.getElem?_eq_some_iff.mp byte).1
    rw [owned i _ byte, ← place]
    rw [placed, Int.add_assoc] at place
    obtain ⟨rfl, -⟩ := (digits_inj bound (show offset + i < size by omega)).mp (by exact_mod_cast place)
    rfl
  · rw [unchanged]
    refine before fun ⟨is, low, high⟩ => outside (j - offset) (by omega) ?_
    rw [is]
    omega

end

section
variable {n : Nat} [NeZero n] {size capacity : Nat} {state next : RingState n}

/-- What a transfer does. -/
theorem transfer_cases (taken : transfer size capacity state r dir ring bytes = some next) :
    ∃ call, (state.ranks r).call = some call ∧ uses n call.step call.stage ring ∧ 0 < bytes ∧
      call.offset dir ring + bytes ≤ opSize size (state.ranks r).senderRecvSize dir ring call.stage ∧
      let moved : GatherRank := { state.ranks r with
        call := some (advance call dir ring bytes (opSize size (state.ranks r).senderRecvSize dir ring call.stage)) }
      let buf := opBuf n r call.step dir ring call.stage
      match dir with
      | .send => (state.streams (r, ring)).length + bytes ≤ capacity ∧
          next = ⟨update state.ranks r moved, update state.streams (r, ring)
            (state.streams (r, ring) ++
              (range bytes).map fun j => readByte size (state.ranks r) buf (call.offset .send ring + j))⟩
      | .recv => bytes ≤ (state.streams (source r ring, ring)).length ∧
          next = ⟨update state.ranks r
            (writeBytes size moved buf (call.offset .recv ring) ((state.streams (source r ring, ring)).take bytes)),
            update state.streams (source r ring, ring) ((state.streams (source r ring, ring)).drop bytes)⟩ := by
  simp only [transfer] at taken
  split at taken
  · cases taken
  next call here =>
    obtain ⟨⟨-, used, some_, fits⟩, taken⟩ := Option.ite_none_right_eq_some.mp taken
    refine ⟨call, here, used, some_, fits, ?_⟩
    cases dir with
    | send | recv => exact of_ite_some taken

omit [NeZero n] in
theorem ret_cases (taken : ret size state r = some next) :
    ∃ call, (state.ranks r).call = some call ∧ isComplete size n (state.ranks r) call ∧
      next = ⟨update state.ranks r (afterCall size n r (state.ranks r) call), state.streams⟩ := by
  simp only [ret] at taken
  split at taken
  · cases taken
  next call here =>
    obtain ⟨⟨-, complete⟩, rfl⟩ := of_ite_some taken
    exact ⟨call, here, complete, rfl⟩

omit [NeZero n] in
theorem fail_cases (taken : fail state r = some next) :
    next = ⟨update state.ranks r { state.ranks r with failed := true }, state.streams⟩ :=
  (of_ite_some taken).2

def sentAt (size : Nat) (ranks : Fin n → GatherRank) (chan : Fin n × Ring) : Nat :=
  pos n size (ranks chan.1) .send chan.2

def rcvdAt (size : Nat) (ranks : Fin n → GatherRank) (chan : Fin n × Ring) : Nat :=
  pos n size (ranks (dest chan.1 chan.2)) .recv chan.2

/-- The ranks, and the bytes between them. -/
structure Inv (size : Nat) (memory : Nat → Int → Nat) (state : RingState n) : Prop where
  rank : ∀ r : Fin n, RankOk n size memory r (state.ranks r)
  carries : Carries (fun chan => Right n size memory chan.1 chan.2) (sentAt size state.ranks) (rcvdAt size state.ranks)
    state.streams

section
variable {ranks : Fin n → GatherRank} {r : Fin n} (dir : SocketDir) (ring : Ring) (bytes : Nat)
  (moves : ∀ dir' ring', pos n size rank dir' ring' =
    pos n size (ranks r) dir' ring' + if dir' = dir ∧ ring' = ring then bytes else 0)
include moves

omit [NeZero n] in
theorem sentAt_update (chan : Fin n × Ring) : sentAt size (update ranks r rank) chan =
    sentAt size ranks chan + if dir = .send ∧ chan = (r, ring) then bytes else 0 := by
  obtain ⟨r', -⟩ := chan
  by_cases here : r' = r
  · subst here
    simp [sentAt, moves, eq_comm]
  · simp [sentAt, here]

/-- The receiver of a stream is the rank exactly for the stream that it reads. -/
theorem rcvdAt_update (chan : Fin n × Ring) : rcvdAt size (update ranks r rank) chan =
    rcvdAt size ranks chan + if dir = .recv ∧ chan = (source r ring, ring) then bytes else 0 := by
  obtain ⟨r', ring'⟩ := chan
  by_cases here : dest r' ring' = r
  · subst here
    simp only [rcvdAt, update_self, moves, Prod.mk.injEq, eq_comm]
    by_cases same : ring = ring'
    · subst same
      simp
    · simp [same]
  · have other : ¬ (r' = source r ring ∧ ring' = ring) := by
      rintro ⟨rfl, rfl⟩
      exact here (dest_source r ring')
    simp [rcvdAt, here, other]

end

theorem Inv.rank_update (inv : Inv size memory state) {r : Fin n} {rank : GatherRank}
    (ok : RankOk n size memory r rank) (r' : Fin n) : RankOk n size memory r' (update state.ranks r rank r') :=
  (forall_update_iff state.ranks fun r' rank => RankOk n size memory r' rank).mpr ⟨ok, fun r' _ => inv.rank r'⟩ r'

/-- A rank changes, with all ends of the streams where they are. -/
theorem Inv.quiet (inv : Inv size memory state) (r : Fin n) (rank : GatherRank) (ok : RankOk n size memory r rank)
    (same : ∀ dir ring, pos n size rank dir ring = pos n size (state.ranks r) dir ring) :
    Inv size memory ⟨update state.ranks r rank, state.streams⟩ := by
  have moves : ∀ dir' ring', pos n size rank dir' ring' =
      pos n size (state.ranks r) dir' ring' + if dir' = .send ∧ ring' = .ring0 then 0 else 0 := by simp [same]
  have sends : sentAt size (update state.ranks r rank) = sentAt size state.ranks :=
    funext fun chan => by simp [sentAt_update .send .ring0 0 moves]
  have recvs : rcvdAt size (update state.ranks r rank) = rcvdAt size state.ranks :=
    funext fun chan => by simp [rcvdAt_update .send .ring0 0 moves]
  exact ⟨inv.rank_update ok, by rw [sends, recvs]; exact inv.carries⟩

end

section
variable {n size : Nat} {call : RingCall}

theorem advance_offset (call : RingCall) (dir : SocketDir) (ring : Ring) (bytes opSize : Nat) (dir' : SocketDir)
    (ring' : Ring) : (advance call dir ring bytes opSize).offset dir' ring' =
      call.offset dir' ring' + if dir' = dir ∧ ring' = ring then bytes else 0 := by
  by_cases same : dir' = dir
  · subst same
    by_cases same' : ring' = ring
    · subst same'
      simp [advance]
    · simp [advance, same']
  · simp [advance, same]

/-- A transfer is as long as both sides mean it to be. -/
theorem CallOk.opSize_eq (ok : CallOk n size rank call) (small : size < 2 ^ 31)
    (used : uses n call.step call.stage ring) (dir : SocketDir) :
    opSize size rank.senderRecvSize dir ring call.stage = amount size call.stage := by
  cases stage : call.stage with
  | sizes0 | sizes1 => rfl
  | data =>
    cases dir with
    | send => rfl
    | recv =>
      rw [stage] at used
      have sizes : ∀ j : Nat, j < 4 → rank.senderRecvSize ring j = intByte size j := by
        intro j below
        refine ok.sizes ring j ?_
        rw [stage, stageBase, if_pos used]
        omega
      simp only [opSize, amount, intOfBytes_of_sizes small sizes]
      omega

/-- The place of a call in its step. -/
theorem inStep_le (used : uses n call.step call.stage ring)
    (fits : call.offset dir ring + bytes ≤ amount size call.stage) :
    stageBase n call.step call.stage ring + (call.offset dir ring + bytes) ≤ 4 + size ∧
      (call.stage ≠ .data → stageBase n call.step call.stage ring = 0 ∧ call.offset dir ring + bytes ≤ 4) ∧
      (call.stage = .data → stageBase n call.step call.stage ring = 4 ∧ call.offset dir ring + bytes ≤ size) := by
  cases stage : call.stage with
  | sizes0 =>
    rw [stage] at fits
    simp only [amount, stageBase] at fits ⊢
    exact ⟨by omega, fun _ => ⟨trivial, fits⟩, fun data => nomatch data⟩
  | sizes1 =>
    rw [stage] at fits used
    obtain rfl : ring = .ring1 := by simpa [uses] using used
    simp only [amount, stageBase] at fits ⊢
    exact ⟨by omega, fun _ => ⟨trivial, fits⟩, fun data => nomatch data⟩
  | data =>
    rw [stage] at fits used
    simp only [amount, stageBase, if_pos used] at fits ⊢
    exact ⟨by omega, fun sizes => absurd rfl sizes, fun _ => ⟨trivial, fits⟩⟩

theorem finishedOps_advance (some_ : 0 < bytes) (fits : call.offset dir ring + bytes ≤ size) :
    finishedOps size (advance call dir ring bytes size) =
      finishedOps size call + if size ≤ call.offset dir ring + bytes then 1 else 0 := by
  have before : ¬ size ≤ call.offset dir ring := by omega
  have positive : 0 < size := by omega
  simp only [finishedOps, advance_offset]
  cases dir <;> cases ring <;> simp [before, positive] <;> omega

/-- Four transfers are counted only if each one has ended. -/
theorem ended_of_finishedOps (four : finishedOps size call = 4) (dir : SocketDir) (ring : Ring) :
    size ≤ call.offset dir ring := by
  by_contra short
  have open_ : ¬ (0 < size ∧ size ≤ call.offset dir ring) := fun both => short both.2
  simp only [finishedOps] at four
  cases dir <;> cases ring <;> rw [if_neg open_] at four <;> split_ifs at four <;> omega

theorem CallOk.advance (ok : CallOk n size rank call) (used : uses n call.step call.stage ring) (some_ : 0 < bytes)
    (fits : call.offset dir ring + bytes ≤ amount size call.stage)
    (sizes : ∀ ring' (j : Nat), j < min 4 (stageBase n call.step call.stage ring' +
      (call.offset .recv ring' + if SocketDir.recv = dir ∧ ring' = ring then bytes else 0)) →
      rank'.senderRecvSize ring' j = intByte size j) :
    CallOk n size rank' (RingGather.advance call dir ring bytes (amount size call.stage)) := by
  refine ⟨ok.within, ok.both, fun dir' ring' => ?_, fun ring' j below => ?_, fun data both => ?_⟩
  · rw [advance_offset]
    have bound := ok.offsets dir' ring'
    by_cases here : dir' = dir ∧ ring' = ring
    · obtain ⟨rfl, rfl⟩ := here
      simpa [RingGather.advance, used] using fits
    · rw [if_neg here]
      exact bound
  · rw [advance_offset] at below
    exact sizes ring' j below
  · have data : call.stage = .data := data
    have counted := ok.counted data both
    rw [data] at fits ⊢
    have fits : call.offset dir ring + bytes ≤ size := fits
    rw [amount, finishedOps_advance some_ fits, ← counted]
    rfl

end

section
variable {n size : Nat} {rank : GatherRank} {call : RingCall}

/-- Another rank with the same data. -/
theorem RankOk.of_same (ok : RankOk n size memory r rank) (data : rank'.data = rank.data)
    (written : rank'.written = rank.written) (call : ∀ call, rank'.call = some call → CallOk n size rank' call)
    (received : ∀ s j, j < size → Received n r rank' s j → Received n r rank s j)
    (held : ∀ s, s ∈ rank'.held ↔ Got n r (stepOf n rank') s) : RankOk n size memory r rank' where
  call := call
  data := fun inRange s j inside bound got => by
    rw [data]
    exact ok.data inRange s j inside bound (got.imp_right (received s j bound))
  unwritten := by
    rw [data, written]
    exact ok.unwritten
  wrote := fun s j bound got => by
    rw [written]
    exact ok.wrote s j bound (received s j bound got)
  inside := by
    rw [written]
    exact ok.inside
  held := held

section
variable {rank' : GatherRank} {opSize : Nat} (here : rank.call = some call)
  (moved : rank'.call = some (advance call dir ring bytes opSize))
include here

theorem inStep_call (dir : SocketDir) (ring : Ring) :
    inStep n rank dir ring = stageBase n call.step call.stage ring + call.offset dir ring := by
  simp [inStep, here]

/-- The position of the next bytes of a transfer. -/
theorem pos_div_mod (size : Nat) (dir : SocketDir) (ring : Ring) (below : inStep n rank dir ring + i < 4 + size) :
    (pos n size rank dir ring + i) / (4 + size) = call.step ∧
      (pos n size rank dir ring + i) % (4 + size) = inStep n rank dir ring + i := by
  simp only [pos, here, add_assoc]
  exact ⟨digits_div below, Nat.mul_add_mod_of_lt below⟩

include moved

theorem stepOf_advance : stepOf n rank' = stepOf n rank := by
  simp [stepOf, here, moved, advance]

theorem inStep_advance (dir' : SocketDir) (ring' : Ring) : inStep n rank' dir' ring' =
    inStep n rank dir' ring' + if dir' = dir ∧ ring' = ring then bytes else 0 := by
  simp only [inStep, here, moved, advance_offset]
  simp [advance, add_assoc]

theorem pos_advance (n size : Nat) (dir' : SocketDir) (ring' : Ring) : pos n size rank' dir' ring' =
    pos n size rank dir' ring' + if dir' = dir ∧ ring' = ring then bytes else 0 := by
  simp only [pos, moved, here, inStep_advance here moved]
  simp [advance, add_assoc]

/-- What has been received was there before, or is in the transfer. -/
theorem received_advance (got : Received n r rank' s j) : Received n r rank s j ∨
    (dir = .recv ∧ s = slice n r call.step .recv ring ∧ inStep n rank .recv ring ≤ 4 + j ∧
      4 + j < inStep n rank .recv ring + bytes) := by
  have step : stepOf n rank = call.step := by simp [stepOf, here]
  simp only [Received, stepOf_advance here moved, inStep_advance here moved] at got
  rcases got with earlier | ⟨ring', used, is, inside⟩
  · exact .inl (.inl earlier)
  · by_cases this : SocketDir.recv = dir ∧ ring' = ring
    · obtain ⟨rfl, rfl⟩ := this
      rw [if_pos ⟨rfl, rfl⟩] at inside
      rcases lt_or_ge (4 + j) (inStep n rank .recv ring') with before | behind
      · exact .inl (.inr ⟨ring', used, is, before⟩)
      · exact .inr ⟨rfl, by rw [is, step], behind, inside⟩
    · rw [if_neg this] at inside
      exact .inl (.inr ⟨ring', used, is, inside⟩)

end

section
variable (ok : RankOk n size memory r rank) (here : rank.call = some call) (used : uses n call.step call.stage ring)
include ok here used

theorem RankOk.send (some_ : 0 < bytes) (fits : call.offset .send ring + bytes ≤ amount size call.stage) :
    RankOk n size memory r { rank with call := some (advance call .send ring bytes (amount size call.stage)) } := by
  have callOk := ok.call call here
  refine ok.of_same rfl rfl (fun call' is => ?_) (fun s j _ got => ?_) ?_
  · cases is
    refine callOk.advance used some_ fits fun ring' j below => ?_
    exact callOk.sizes ring' j (by simpa using below)
  · rcases received_advance here rfl got with before | ⟨sends, -⟩
    · exact before
    · cases sends
  · rw [stepOf_advance here rfl]
    exact ok.held

/-- A size that comes in. -/
theorem RankOk.recv_size (count : list.length = bytes) (some_ : 0 < bytes)
    (fits : call.offset .recv ring + bytes ≤ amount size call.stage) (sizes : call.stage ≠ .data) {source : Nat}
    (right : ∀ i byte : Nat, list[i]? = some byte →
      Right n size memory source ring (pos n size rank .recv ring + i) byte) :
    RankOk n size memory r
      { rank with
        call := some (advance call .recv ring bytes (amount size call.stage))
        senderRecvSize := update rank.senderRecvSize ring
          (storeBytes (rank.senderRecvSize ring) (call.offset .recv ring) list) } := by
  have callOk := ok.call call here
  obtain ⟨-, sizesBound, -⟩ := inStep_le used fits
  obtain ⟨base, bound⟩ := sizesBound sizes
  have within : inStep n rank .recv ring = call.offset .recv ring := by
    rw [inStep_call here, base, zero_add]
  refine ok.of_same rfl rfl (fun call' is => ?_) (fun s j _ got => ?_) fun s => ?_
  · cases is
    refine callOk.advance used some_ fits fun ring' j below => ?_
    by_cases this : ring' = ring
    · subst this
      simp only [update_self]
      rcases storeBytes_apply (rank.senderRecvSize ring') (call.offset .recv ring') j list with
        ⟨i, place, byte⟩ | ⟨outside, unchanged⟩
      · have i_lt := (List.getElem?_eq_some_iff.mp byte).1
        have at_i := pos_div_mod (n := n) here size .recv ring' (i := i) (by omega)
        have header := (right i _ byte).1
        rw [header (by omega)]
        congr 1
        omega
      · rw [unchanged]
        refine callOk.sizes ring' j ?_
        rw [if_pos ⟨rfl, rfl⟩] at below
        by_contra new
        refine outside (j - call.offset .recv ring') ?_ ?_ <;> omega
    · simp only [update_of_ne this]
      exact callOk.sizes ring' j (by simpa [this] using below)
  · -- within the sizes no data has come in
    rcases received_advance here rfl got with before | ⟨-, -, -, inside⟩
    · exact before
    · omega
  · rw [stepOf_advance here rfl]
    exact ok.held s

end

/-- Data that comes in is what it is at its owner. -/
theorem RankOk.recv_data [NeZero n] {r : Fin n} (ok : RankOk n size memory r rank) (here : rank.call = some call)
    (used : uses n call.step call.stage ring) {list : List Nat} (count : list.length = bytes) (some_ : 0 < bytes)
    (fits : call.offset .recv ring + bytes ≤ amount size call.stage) (data : call.stage = .data)
    (right : ∀ i byte : Nat, list[i]? = some byte →
      Right n size memory (source r ring) ring (pos n size rank .recv ring + i) byte) {address : Int}
    (placed : address = sliceAddr size (slice n r call.step .recv ring) + call.offset .recv ring) :
    RankOk n size memory r
      { rank with
        call := some (advance call .recv ring bytes (amount size call.stage))
        data := storeBytes rank.data address list
        written := rank.written ++ (range list.length).map fun (j : Nat) => address + j } := by
  have callOk := ok.call call here
  obtain ⟨-, -, dataBound⟩ := inStep_le used fits
  obtain ⟨base, bound⟩ := dataBound data
  subst count
  have inStep_eq : inStep n rank .recv ring = 4 + call.offset .recv ring := by rw [inStep_call here, base]
  have within : call.step < n := by
    have := callOk.within
    unfold totalSteps at this
    omega
  have isSlice : slice n r call.step .recv ring < n := slice_lt _ _ _ _
  have placed' : InRange n size → address = slice n r call.step .recv ring * size + call.offset .recv ring :=
    fun inRange => by rw [placed, sliceAddr_of_inRange inRange isSlice]
  -- a byte of the list is the owner's
  have owned : InRange n size → ∀ i byte : Nat, list[i]? = some byte →
      byte = memory (slice n r call.step .recv ring) (address + i) := by
    intro inRange i byte at_i
    have i_lt := (List.getElem?_eq_some_iff.mp at_i).1
    obtain ⟨quotient, remainder⟩ := pos_div_mod (n := n) here size .recv ring (i := i) (by omega)
    have := (right i byte at_i).2 inRange (by omega)
    rw [quotient, slice_source r within] at this
    exact this.trans (congrArg _ (by rw [placed' inRange]; omega))
  refine ⟨fun call' is => ?_, fun inRange s j inside j_lt got => ?_, unwritten_store ok.unwritten,
    fun s j j_lt got => ?_, fun inRange => inside_store (ok.inside inRange) isSlice bound (placed' inRange), fun s => ?_⟩
  · cases is
    refine callOk.advance used some_ fits fun ring' j below => callOk.sizes ring' j ?_
    by_cases this : ring' = ring
    · subst this
      omega
    · simpa [this] using below
  · refine data_store bound (placed' inRange) (owned inRange) j_lt fun elsewhere => ?_
    refine ok.data inRange s j inside j_lt (got.imp_right fun received => ?_)
    rcases received_advance here rfl received with before | ⟨-, is, low, high⟩
    · exact before
    · exact absurd ⟨is, by omega, by omega⟩ elsewhere
  · rw [mem_append]
    rcases received_advance here rfl got with before | ⟨-, rfl, low, high⟩
    · exact .inl (ok.wrote s j j_lt before)
    · exact .inr (mem_map.mpr ⟨j - call.offset .recv ring, mem_range.mpr (by omega), by omega⟩)
  · rw [stepOf_advance here rfl]
    exact ok.held s

/-- A call that returns has moved all its bytes. -/
theorem CallOk.complete (ok : CallOk n size rank call) (small : size < 2 ^ 31)
    (complete : isComplete size n rank call) (dir : SocketDir) (ring : Ring) :
    call.offset dir ring = if uses n call.step call.stage ring then amount size call.stage else 0 := by
  have bound := ok.offsets dir ring
  by_cases used : uses n call.step call.stage ring
  · rw [if_pos used] at bound ⊢
    refine bound.antisymm ?_
    simp only [isComplete] at complete
    split at complete
    next multi =>
      obtain ⟨data, both⟩ := multi
      have both : isFinalUnidirectional n call.step = false := by simpa using both
      have counted := ok.counted data both
      rw [of_decide_eq_true complete] at counted
      rw [data]
      exact ended_of_finishedOps counted.symm dir ring
    next =>
      rw [← ok.opSize_eq small used dir]
      rw [all_eq_true] at complete
      have ring_mem : ring ∈ [Ring.ring0, .ring1] := by cases ring <;> simp
      have dir_mem : dir ∈ [SocketDir.send, .recv] := by cases dir <;> simp
      have := complete ring ring_mem
      rw [used] at this
      simp only [Bool.not_true, Bool.false_or, all_eq_true] at this
      exact of_decide_eq_true (this dir dir_mem)
  · rw [if_neg used] at bound ⊢
    omega

/-- A rank goes on to a call of the same step, with all ends where they are. -/
theorem RankOk.enter (ok : RankOk n size memory r rank) (here : rank.call = some call) (stage : RingStage)
    (bases : ∀ dir ring, stageBase n call.step stage ring =
      stageBase n call.step call.stage ring + call.offset dir ring)
    (both : stage = .sizes1 → isFinalUnidirectional n call.step = false) :
    RankOk n size memory r { rank with call := some (startCall call.step stage) } ∧
      ∀ dir ring, pos n size { rank with call := some (startCall call.step stage) } dir ring =
        pos n size rank dir ring := by
  have callOk := ok.call call here
  have steps : stepOf n { rank with call := some (startCall call.step stage) } = stepOf n rank := by
    simp [stepOf, here, startCall]
  have ends : ∀ dir ring, inStep n { rank with call := some (startCall call.step stage) } dir ring =
      inStep n rank dir ring := by
    intro dir ring
    simp [inStep, here, startCall, bases dir ring]
  refine ⟨ok.of_same rfl rfl (fun call' is => ?_) (fun s j _ got => ?_) fun s => ?_, fun dir ring => ?_⟩
  · cases is
    refine ⟨callOk.within, both, fun _ _ => Nat.zero_le _, fun ring j below => callOk.sizes ring j ?_, fun _ _ => ?_⟩
    · rw [← bases .recv ring]
      exact below
    · simp only [startCall, finishedOps, Nat.le_zero]
      rw [if_neg (by omega)]
  · simpa [Received, steps, ends] using got
  · rw [steps]
    exact ok.held s
  · simp only [pos, here, ends]
    rfl

section
variable {step : Nat} (starts : rank.call = startStep n step)
include starts

theorem stepOf_startStep (within : step ≤ totalSteps n) : stepOf n rank = step := by
  by_cases more : step < totalSteps n
  · simp [stepOf, starts, startStep, more, startCall]
  · simp only [stepOf, starts, startStep, more, if_false]
    omega

theorem inStep_startStep (dir : SocketDir) (ring : Ring) : inStep n rank dir ring = 0 := by
  by_cases more : step < totalSteps n <;> simp [inStep, starts, startStep, more, startCall, stageBase]

theorem callOk_startStep (here : rank.call = some call) : CallOk n size rank call := by
  obtain ⟨more, rfl⟩ := of_ite_some (starts.symm.trans here)
  refine ⟨more, fun sizes => (nomatch sizes), fun _ _ => Nat.zero_le _, fun ring j below => ?_,
    fun data => (nomatch data)⟩
  simp [startCall, stageBase] at below

end

theorem pos_startStep {step : Nat} (within : step < totalSteps n) (rank : GatherRank) (dir : SocketDir) (ring : Ring) :
    pos n size { rank with call := startStep n (step + 1) } dir ring =
      step * (4 + size) + if uses n step .data ring then 4 + size else 0 := by
  by_cases more : step + 1 < totalSteps n
  · have used : uses n step .data ring := (uses_data_iff step ring).mpr (.inr (by omega))
    simp only [pos, startStep, more, if_true, startCall, used]
    rw [Nat.add_one_mul]
    rfl
  · have last : step = totalSteps n - 1 := by omega
    simp only [pos, startStep, more, if_false]
    cases ring with
    | ring0 =>
      rw [if_pos ((uses_data_iff step .ring0).mpr (.inl rfl)), lastStep, show totalSteps n = step + 1 by omega,
        Nat.add_one_mul]
    | ring1 =>
      by_cases even : n % 2 = 0
      · rw [if_neg (by rw [uses_data_iff]; simp [last, even]), lastStep, if_pos even, last, add_zero]
      · rw [if_pos ((uses_data_iff step .ring1).mpr (.inr fun both => even both.2)), lastStep, if_neg even,
          show totalSteps n = step + 1 by omega, Nat.add_one_mul]

/-- A rank behind the data of a step. -/
theorem RankOk.nextStep (ok : RankOk n size memory r rank) (here : rank.call = some call) (data : call.stage = .data)
    (ended : ∀ dir ring, call.offset dir ring = if uses n call.step call.stage ring then amount size call.stage else 0) :
    let rank' : GatherRank := { rank with
      call := startStep n (call.step + 1)
      held := rank.held ++ ([Ring.ring0, .ring1].filter (uses n call.step .data)).map (slice n r call.step .recv) }
    RankOk n size memory r rank' ∧ ∀ dir ring, pos n size rank' dir ring = pos n size rank dir ring := by
  intro rank'
  have within := (ok.call call here).within
  have step : stepOf n rank = call.step := by simp [stepOf, here]
  have steps : stepOf n rank' = call.step + 1 := stepOf_startStep rfl within
  have zero : ∀ dir ring, inStep n rank' dir ring = 0 := inStep_startStep rfl
  have moved : ∀ dir ring, uses n call.step .data ring → inStep n rank dir ring = 4 + size := by
    intro dir ring used
    simp [inStep, here, ended, data, stageBase, used, amount]
  have before : ∀ s j, j < size → Received n r rank' s j → Received n r rank s j := by
    rintro s j j_lt (⟨t, earlier, ring, used, is⟩ | ⟨ring, -, -, inside⟩)
    · rw [steps] at earlier
      rcases Nat.lt_succ_iff_lt_or_eq.mp earlier with earlier | rfl
      · exact .inl ⟨t, by rw [step]; exact earlier, ring, used, is⟩
      · refine .inr ⟨ring, by rw [step]; exact used, by rw [step]; exact is, ?_⟩
        rw [moved .recv ring used]
        omega
    · rw [zero] at inside
      omega
  refine ⟨ok.of_same rfl rfl (fun call' is => callOk_startStep rfl is) before fun s => ?_, fun dir ring => ?_⟩
  · have held := ok.held s
    rw [step] at held
    rw [steps, mem_append, held, mem_map]
    constructor
    · rintro ((own | ⟨t, earlier, ring, used, is⟩) | ⟨ring, member, is⟩)
      · exact .inl own
      · exact .inr ⟨t, by omega, ring, used, is⟩
      · exact .inr ⟨call.step, lt_add_one _, ring, (mem_filter.mp member).2, is.symm⟩
    · rintro (own | ⟨t, earlier, ring, used, is⟩)
      · exact .inl (.inl own)
      · rcases Nat.lt_succ_iff_lt_or_eq.mp earlier with earlier | rfl
        · exact .inl (.inr ⟨t, earlier, ring, used, is⟩)
        · refine .inr ⟨ring, mem_filter.mpr ⟨?_, used⟩, is.symm⟩
          cases ring <;> simp
  · have after : pos n size rank' dir ring = _ := pos_startStep within rank' dir ring
    rw [after]
    simp only [pos, here, inStep, ended, data, stageBase, amount]
    split <;> rfl

theorem CallOk.not_truncated (ok : CallOk n size rank call) (small : size < 2 ^ 31)
    (known : 4 ≤ stageBase n call.step call.stage ring + call.offset .recv ring) :
    ¬ (size : Int) < intOfBytes (rank.senderRecvSize ring) := by
  rw [intOfBytes_of_sizes small fun j below => ok.sizes ring j (by omega)]
  omega

/-- What follows a call: another one of the step, as no size is truncated, or the next step. -/
theorem CallOk.afterCall_cases (ok : CallOk n size rank call) (small : size < 2 ^ 31)
    (ended : ∀ dir ring, call.offset dir ring = if uses n call.step call.stage ring then amount size call.stage else 0) :
    (∃ stage, afterCall size n r rank call = { rank with call := some (startCall call.step stage) } ∧
      ((call.stage = .sizes0 ∧ stage = .data ∧ isFinalUnidirectional n call.step = true) ∨
        (call.stage = .sizes0 ∧ stage = .sizes1 ∧ isFinalUnidirectional n call.step = false) ∨
        (call.stage = .sizes1 ∧ stage = .data ∧ isFinalUnidirectional n call.step = false))) ∨
    call.stage = .data := by
  rw [afterCall]
  cases stage : call.stage with
  | sizes0 =>
    have known : 4 ≤ stageBase n call.step call.stage .ring0 + call.offset .recv .ring0 := by
      rw [ended, stage]
      simp [uses, amount]
    cases last : isFinalUnidirectional n call.step with
    | true =>
      refine .inl ⟨.data, ?_, .inl ⟨rfl, rfl, rfl⟩⟩
      simp only
      rw [if_pos trivial, if_neg (by simpa using ok.not_truncated small known)]
    | false => exact .inl ⟨.sizes1, rfl, .inr (.inl ⟨rfl, rfl, rfl⟩)⟩
  | sizes1 =>
    have known : ∀ ring, 4 ≤ stageBase n call.step call.stage ring + call.offset .recv ring := by
      intro ring
      rw [ended, stage]
      cases ring <;> simp [stageBase, uses, amount]
    refine .inl ⟨.data, ?_, .inr (.inr ⟨rfl, rfl, ok.both stage⟩)⟩
    simp only
    rw [if_neg (by simpa using ⟨Int.not_lt.mp (ok.not_truncated small (known .ring0)),
      Int.not_lt.mp (ok.not_truncated small (known .ring1))⟩)]
  | data => exact .inr rfl

/-- A call returns: the ends of the streams stay. -/
theorem RankOk.after (ok : RankOk n size memory r rank) (small : size < 2 ^ 31) (here : rank.call = some call)
    (complete : isComplete size n rank call) :
    RankOk n size memory r (afterCall size n r rank call) ∧
      ∀ dir ring, pos n size (afterCall size n r rank call) dir ring = pos n size rank dir ring := by
  have ended := (ok.call call here).complete small complete
  rcases (ok.call call here).afterCall_cases small ended with ⟨stage, is, kinds⟩ | data
  · rw [is]
    refine ok.enter here stage (fun dir ring => ?_) fun sizes1 => ?_
    · rw [ended]
      rcases kinds with ⟨before, rfl, last⟩ | ⟨before, rfl, last⟩ | ⟨before, rfl, last⟩ <;>
        rw [before] <;> cases ring <;> simp [stageBase, uses, amount, last]
    · rcases kinds with ⟨-, rfl, -⟩ | ⟨-, rfl, last⟩ | ⟨-, rfl, -⟩
      · cases sizes1
      · exact last
      · cases sizes1
  · simp only [afterCall, data]
    exact ok.nextStep here data ended

theorem writeBytes_call (rank : GatherRank) (buf : RingBuf) (offset : Nat) (bytes : List Nat) :
    (writeBytes size rank buf offset bytes).call = rank.call := by
  cases buf <;> rfl

theorem RankOk.fail (ok : RankOk n size memory r rank) : RankOk n size memory r { rank with failed := true } := by
  exact ok.of_same rfl rfl (fun call here => { ok.call call here with }) (fun _ _ _ got => got) ok.held

end

variable [NeZero n] {size capacity : Nat} {state next : RingState n}

omit [NeZero n] in
theorem opBuf_sizes {step : Nat} (sizes : stage ≠ .data) :
    opBuf n r step dir ring stage = if dir = .send then .size else .senderRecvSize ring := by
  cases stage with
  | data => exact absurd rfl sizes
  | sizes0 | sizes1 => cases dir <;> rfl

/-- What is sent is what the stream is to carry. -/
theorem RankOk.read_right {r : Fin n} {rank : GatherRank} {call : RingCall} {ring : Ring} {bytes i : Nat}
    (ok : RankOk n size memory r rank) (here : rank.call = some call) (used : uses n call.step call.stage ring)
    (fits : call.offset .send ring + bytes ≤ amount size call.stage) (below : i < bytes) :
    Right n size memory r ring (pos n size rank .send ring + i)
      (readByte size rank (opBuf n r call.step .send ring call.stage) (call.offset .send ring + i)) := by
  obtain ⟨total, sizesBound, dataBound⟩ := inStep_le used fits
  have place := inStep_call (n := n) here .send ring
  obtain ⟨quotient, remainder⟩ := pos_div_mod (n := n) here size .send ring (i := i) (by omega)
  rw [Right, quotient, remainder, place]
  by_cases data : call.stage = .data
  · obtain ⟨base, bound⟩ := dataBound data
    rw [base, data, opBuf, readByte]
    refine ⟨fun small => by omega, fun inRange _ => ?_⟩
    have has : slice n r call.step .send ring = r ∨
        Received n r rank (slice n r call.step .send ring) (call.offset .send ring + i) := by
      refine (got_send r (ok.call call here).within ring).imp_right fun earlier => .inl ?_
      simpa [stepOf, here] using earlier
    rw [sliceAddr_of_inRange inRange (slice_lt _ _ _ _), ok.data inRange _ _ (slice_lt _ _ _ _) (by omega) has]
    congr 3
    omega
  · obtain ⟨base, bound⟩ := sizesBound data
    rw [base, opBuf_sizes data, if_pos rfl, readByte]
    exact ⟨fun _ => by rw [zero_add], fun _ large => by omega⟩

theorem Inv.transfer (inv : Inv size memory state) (small : size < 2 ^ 31) {r : Fin n} {dir : SocketDir} {ring : Ring}
    {bytes : Nat} (taken : RingGather.transfer size capacity state r dir ring bytes = some next) :
    Inv size memory next := by
  obtain ⟨call, here, used, some_, fits, moves⟩ := transfer_cases taken
  have ok := inv.rank r
  have long := (ok.call call here).opSize_eq small used dir
  rw [long] at fits moves
  have moves' : ∀ rank' : GatherRank, rank'.call = some (advance call dir ring bytes (amount size call.stage)) →
      ∀ dir' ring', pos n size rank' dir' ring' =
        pos n size (state.ranks r) dir' ring' + if dir' = dir ∧ ring' = ring then bytes else 0 :=
    fun rank' moved => pos_advance here moved n size
  cases dir with
  | send =>
    obtain ⟨-, rfl⟩ := moves
    refine ⟨inv.rank_update (ok.send here used some_ fits), inv.carries.append (r, ring) _
      (fun chan => (sentAt_update .send ring bytes (moves' _ (by rfl)) chan).trans (by simp))
      (fun chan => (rcvdAt_update .send ring bytes (moves' _ (by rfl)) chan).trans (by simp)) fun i byte at_i => ?_⟩
    · obtain ⟨below, rfl⟩ := getElem?_map_range.mp at_i
      exact ok.read_right here used fits below
  | recv =>
    obtain ⟨there, rfl⟩ := moves
    have count : ((state.streams (source r ring, ring)).take bytes).length = bytes := by
      rw [length_take]
      omega
    have right : ∀ i byte : Nat, ((state.streams (source r ring, ring)).take bytes)[i]? = some byte →
        Right n size memory (source r ring) ring (pos n size (state.ranks r) .recv ring + i) byte := by
      intro i byte at_i
      rw [getElem?_take] at at_i
      split at at_i
      · simpa [rcvdAt] using inv.carries.right _ _ _ at_i
      · cases at_i
    refine ⟨inv.rank_update ?_, inv.carries.drop (source r ring, ring) bytes there
      (fun chan => (sentAt_update .recv ring bytes (moves' _ (writeBytes_call _ _ _ _)) chan).trans (by simp))
      fun chan => (rcvdAt_update .recv ring bytes (moves' _ (writeBytes_call _ _ _ _)) chan).trans (by simp)⟩
    · by_cases data : call.stage = .data
      · have moved := ok.recv_data here used count some_ fits data right rfl
        rw [data] at moved ⊢
        exact moved
      · rw [opBuf_sizes data]
        exact ok.recv_size here used count some_ fits data right

theorem Inv.step (inv : Inv size memory state) (small : size < 2 ^ 31)
    (taken : RingGather.step size capacity state event = some next) : Inv size memory next := by
  cases event with
  | transfer => exact inv.transfer small taken
  | ret r =>
    obtain ⟨call, here, complete, rfl⟩ := ret_cases taken
    obtain ⟨ok, same⟩ := (inv.rank r).after small here complete
    exact inv.quiet r _ ok same
  | fail r =>
    obtain rfl := fail_cases taken
    exact inv.quiet r _ (inv.rank r).fail fun _ _ => rfl

theorem inv_init (size : Nat) (memory : Nat → Int → Nat) : Inv size memory (init memory : RingState n) := by
  have step : ∀ r : Fin n, stepOf n ((init memory : RingState n).ranks r) = 0 := fun _ =>
    stepOf_startStep rfl (Nat.zero_le _)
  have within : ∀ (r : Fin n) dir ring, inStep n ((init memory : RingState n).ranks r) dir ring = 0 := fun _ =>
    inStep_startStep rfl
  have start : ∀ (r : Fin n) dir ring, pos n size ((init memory : RingState n).ranks r) dir ring = 0 := by
    intro r dir ring
    by_cases steps : 0 < totalSteps n
    · simp only [pos, within]
      simp [init, startStep, steps, startCall]
    · have none : totalSteps n = 0 := by omega
      cases ring <;> simp [init, pos, startStep, none, lastStep]
  have nothing : ∀ (r : Fin n) s j, ¬ Received n r ((init memory : RingState n).ranks r) s j := by
    rintro r s j (⟨t, earlier, -⟩ | ⟨ring, -, -, inside⟩)
    · rw [step] at earlier
      omega
    · rw [within] at inside
      omega
  refine ⟨fun r => ⟨fun call is => callOk_startStep rfl is, fun _ s j _ _ got => ?_, fun _ _ => rfl,
    fun s j _ got => ?_, fun _ _ member => (nomatch member), fun s => ?_⟩, fun chan => ?_, fun chan i byte there => ?_⟩
  · rcases got with rfl | got
    · rfl
    · exact absurd got (nothing r s j)
  · exact absurd got (nothing r s j)
  · rw [step]
    simp [init, Got]
  · rw [sentAt, rcvdAt, start, start]
    rfl
  · simp [init] at there

/-- Every run keeps the ranks and the streams right. -/
theorem Inv.run (small : size < 2 ^ 31) {events : List (RingEvent n)}
    (run : events.foldlM (RingGather.step size capacity) (init memory) = some state) : Inv size memory state :=
  foldlM_invariant run (inv_init size memory) fun inv taken => inv.step small taken

end NcclCore.BootstrapRingProofs
