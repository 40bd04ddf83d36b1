import Mathlib.Algebra.Order.BigOperators.Group.Finset
import NcclCore.IbSend
import NcclCore.Lib.Pieces

/-! A send writes every byte once exactly when no device with the weight 0 has a
queue pair before the data is all handed out. An empty chunk clears `num_sge` of
its work request for all queue pairs that follow. -/
namespace NcclCore

/-- The writes of the data of a request. -/
def IbMultiSend.writes (send : IbMultiSend ndevs) (r : Nat) : List IbSendWr :=
  (send.posted.filterMap fun chain => chain[r]?).filter fun wr => wr.numSge ≠ 0

/-- Whether a write covers a byte of the receiver's buffer. -/
def IbSendWr.covers (wr : IbSendWr) (remote : Nat) : Bool := wr.remoteAddr ≤ remote ∧ remote < wr.remoteAddr + wr.length

/-- What a send is to do. -/
structure IbMultiSend.SentOnce (send : IbMultiSend ndevs) : Prop where
  /-- Every byte of a request is written once, and none beyond. -/
  bytes : ∀ r req, send.reqs[r]? = some req → ∀ byte,
    (send.writes r).countP (·.covers (req.remoteAddr + byte)) = if byte < req.size then 1 else 0
  /-- A write goes from an offset of the data to the same offset of the receiver's buffer. -/
  places : ∀ r req, send.reqs[r]? = some req → ∀ wr ∈ send.writes r,
    ∃ offset, wr.addr = req.data + offset ∧ wr.remoteAddr = req.remoteAddr + offset ∧ offset + wr.length ≤ req.size
  /-- All chunks but the last of a request are multiples of 128 bytes. -/
  aligned : ∀ r req, send.reqs[r]? = some req → ∀ wr ∈ send.writes r,
    128 ∣ wr.length ∨ wr.remoteAddr + wr.length = req.remoteAddr + req.size
  /-- The last work request on a queue pair is the only one with an immediate value and a completion. -/
  immediate : ∀ chain ∈ send.posted, ∃ others last, chain = others ++ [last] ∧
    last.opcode = .rdmaWriteWithImm ∧ last.signaled ∧ ∀ wr ∈ others, wr.opcode = .rdmaWrite ∧ ¬ wr.signaled
  /-- What else is written is the sizes of a group, in its completion record. -/
  others : ∀ chain ∈ send.posted, ∀ wr ∈ chain.drop send.reqs.length, wr.numSge ≠ 0 →
    1 < send.reqs.length ∧ wr.remoteAddr = send.remCmplsRecords + send.slot * cmplsRecordBytes ∧
      wr.length = send.reqs.length * 4
  /-- There is one chain for each queue pair. -/
  chains : send.posted.length = send.qpDevs.length

/-- A group of requests on devices of given speeds, each with a queue pair. -/
structure IbSendGroup where
  ndevs : Nat
  ndevs_pos : 0 < ndevs
  devSpeeds : Fin ndevs → Nat
  speeds_pos : ∀ dev, 0 < devSpeeds dev
  eventBasedLb : Bool
  send : IbMultiSend ndevs
  weights : send.weights = ncclIbComputeLbWeights eventBasedLb devSpeeds
  used : ∀ dev, dev ∈ send.qpDevs
  reqs_pos : 0 < send.reqs.length
  reqs_le : send.reqs.length ≤ 8
  sizes : ∀ req ∈ send.reqs, req.size < 2 ^ 31

namespace IbSendProofs
open Lib IbMultiSend List
variable {ndevs : Nat}

/-! ### Weights -/

section
variable (eventBasedLb : Bool) (devSpeeds : Fin ndevs → Nat)

/-- A weight before the rest is given to the last device. -/
def baseWeight (eventBasedLb : Bool) (devSpeeds : Fin ndevs → Nat) (dev : Fin ndevs) : Nat :=
  if eventBasedLb then devSpeeds dev * 100 / ∑ d, devSpeeds d else 100 / ndevs

theorem sum_baseWeight_le : ∑ dev, baseWeight eventBasedLb devSpeeds dev ≤ 100 := by
  cases eventBasedLb with
  | false =>
    simp only [baseWeight, Finset.sum_const, Finset.card_univ, Fintype.card_fin, smul_eq_mul,
      Bool.false_eq_true, if_false]
    exact Nat.mul_div_le 100 ndevs
  | true =>
    simp only [baseWeight, if_true]
    by_cases none : ∑ d, devSpeeds d = 0
    · simp [none]
    · have scaled : (∑ dev, devSpeeds dev * 100 / ∑ d, devSpeeds d) * ∑ d, devSpeeds d ≤ 100 * ∑ d, devSpeeds d := by
        rw [Finset.sum_mul, Finset.mul_sum]
        exact Finset.sum_le_sum fun dev _ => (Nat.div_mul_le_self _ _).trans_eq (mul_comm _ _)
      exact Nat.le_of_mul_le_mul_right scaled (Nat.pos_of_ne_zero none)

theorem weights_eq (dev : Fin ndevs) :
    ncclIbComputeLbWeights eventBasedLb devSpeeds dev = baseWeight eventBasedLb devSpeeds dev +
      if dev.val = ndevs - 1 then 100 - ∑ d, baseWeight eventBasedLb devSpeeds d else 0 := by
  have total := sum_baseWeight_le eventBasedLb devSpeeds
  have unfolded : ncclIbComputeLbWeights eventBasedLb devSpeeds dev =
      if (∑ d, baseWeight eventBasedLb devSpeeds d % 2 ^ 8) % 2 ^ 8 < 100 ∧ dev.val = ndevs - 1 then
        (baseWeight eventBasedLb devSpeeds dev % 2 ^ 8 +
          (100 - (∑ d, baseWeight eventBasedLb devSpeeds d % 2 ^ 8) % 2 ^ 8)) % 2 ^ 8
      else baseWeight eventBasedLb devSpeeds dev % 2 ^ 8 := rfl
  rw [unfolded]
  generalize baseWeight eventBasedLb devSpeeds = weight at total ⊢
  have each : ∀ d, weight d ≤ ∑ d, weight d :=
    fun d => Finset.single_le_sum (fun _ _ => Nat.zero_le _) (Finset.mem_univ d)
  have small : ∀ d, weight d % 2 ^ 8 = weight d := fun d => Nat.mod_eq_of_lt (by have := each d; omega)
  have mine := each dev
  simp only [small]
  split <;> split <;> omega

/-- The weights are percentages of the whole. -/
theorem sum_weights (pos : 0 < ndevs) : ∑ dev, ncclIbComputeLbWeights eventBasedLb devSpeeds dev = 100 := by
  have total := sum_baseWeight_le eventBasedLb devSpeeds
  simp only [weights_eq eventBasedLb devSpeeds, Finset.sum_add_distrib]
  have last : (∑ dev : Fin ndevs, if dev.val = ndevs - 1 then 100 - ∑ d, baseWeight eventBasedLb devSpeeds d else 0) =
      100 - ∑ d, baseWeight eventBasedLb devSpeeds d := by
    rw [Finset.sum_eq_single_of_mem ⟨ndevs - 1, by omega⟩ (Finset.mem_univ _), if_pos rfl]
    intro dev _ other
    rw [if_neg fun same => other (Fin.ext same)]
  omega

end

/-! ### Chunks -/

section
variable (group : IbSendGroup)

theorem weight_le (dev : Fin group.ndevs) : group.send.weights dev ≤ 100 := by
  have total := sum_weights group.eventBasedLb group.devSpeeds group.ndevs_pos
  rw [← group.weights] at total
  rw [← total]
  exact Finset.single_le_sum (fun _ _ => Nat.zero_le _) (Finset.mem_univ dev)

theorem count_pos (dev : Fin group.ndevs) : 0 < group.send.qpDevs.count dev := count_pos_iff.mpr (group.used dev)

variable {size : Nat}
variable (small : size < 2 ^ 31)
include small

/-- A chunk does not wrap. -/
theorem chunkLength_eq (dev : Fin group.ndevs) : group.send.chunkLength size dev =
    divUp (divUp (size * group.send.weights dev) (100 * group.send.qpDevs.count dev)) 128 * 128 := by
  have pos := count_pos group dev
  have share : divUp (size * group.send.weights dev) (100 * group.send.qpDevs.count dev) ≤ size := by
    rw [divUp_le_iff (by omega)]
    calc size * group.send.weights dev ≤ size * (100 * 1) := Nat.mul_le_mul_left _ (weight_le group dev)
      _ ≤ size * (100 * group.send.qpDevs.count dev) := Nat.mul_le_mul_left _ (Nat.mul_le_mul_left _ pos)
  refine Nat.mod_eq_of_lt (lt_of_lt_of_le (divUp_mul_lt (by decide)) ?_)
  omega

theorem chunkLength_covers (dev : Fin group.ndevs) :
    size * group.send.weights dev ≤ group.send.qpDevs.count dev * group.send.chunkLength size dev * 100 := by
  have pos := count_pos group dev
  rw [chunkLength_eq group small]
  calc size * group.send.weights dev
      ≤ divUp (size * group.send.weights dev) (100 * group.send.qpDevs.count dev) *
        (100 * group.send.qpDevs.count dev) :=
        le_divUp_mul (by omega)
    _ ≤ divUp (divUp (size * group.send.weights dev) (100 * group.send.qpDevs.count dev)) 128 * 128 *
          (100 * group.send.qpDevs.count dev) := Nat.mul_le_mul_right _ (le_divUp_mul (by decide))
    _ = _ := by ring

/-- The chunks of all queue pairs are enough for the data. -/
theorem sum_chunkLength :
    size ≤ (group.send.qpDevs.map (group.send.chunkLength size)).sum := by
  have all := Finset.eq_univ_of_forall fun dev => mem_toFinset.mpr (group.used dev)
  rw [Finset.sum_list_map_count, all]
  have total := sum_weights group.eventBasedLb group.devSpeeds group.ndevs_pos
  rw [← group.weights] at total
  refine Nat.le_of_mul_le_mul_right ?_ (show 0 < 100 by decide)
  calc size * 100 = ∑ dev, size * group.send.weights dev := by rw [← Finset.mul_sum, total]
    _ ≤ ∑ dev, group.send.qpDevs.count dev * group.send.chunkLength size dev * 100 :=
        Finset.sum_le_sum fun dev _ => chunkLength_covers group small dev
    _ = _ := by rw [← Finset.sum_mul]; rfl

/-- A chunk is empty for a device with the weight 0. -/
theorem chunkLength_eq_zero_iff (nonempty : 0 < size) (dev : Fin group.ndevs) :
    group.send.chunkLength size dev = 0 ↔ group.send.weights dev = 0 := by
  have pos := count_pos group dev
  constructor
  · intro empty
    have covers := chunkLength_covers group small dev
    rw [empty] at covers
    exact (Nat.mul_eq_zero.mp (Nat.le_zero.mp covers)).resolve_left nonempty.ne'
  · intro none
    rw [chunkLength_eq group small, none, mul_zero]
    have zero : divUp 0 (100 * group.send.qpDevs.count dev) = 0 := by
      exact Nat.div_eq_of_lt (by omega)
    rw [zero]
    rfl

end

/-! ### The writes of a request -/

section
variable (send : IbMultiSend ndevs)

/-- The work requests of one request over the queue pairs. -/
def requestWrs : List (Fin ndevs) → Slot → List IbSendWr
  | [], _ => []
  | dev :: rest, slot => (slot.load send dev).wr :: requestWrs rest (slot.load send dev).advance

theorem postQps_wrs (devs : List (Fin ndevs)) (slots : List Slot) {r : Nat} {slot : Slot}
    (here : slots[r]? = some slot) :
    (send.postQps devs slots).filterMap (fun chain => chain[r]?) = requestWrs send devs slot := by
  induction devs generalizing slots slot with
  | nil => rfl
  | cons dev rest ih =>
    have loaded : (slots.map fun slot => slot.load send dev)[r]? = some (slot.load send dev) := by
      rw [getElem?_map, here, Option.map_some]
    have advanced : ((slots.map fun slot => slot.load send dev).map Slot.advance)[r]? =
        some (slot.load send dev).advance := by
      rw [getElem?_map, loaded, Option.map_some]
    have bound := (List.getElem?_eq_some_iff.mp loaded).1
    have first : (send.chain (slots.map fun slot => slot.load send dev))[r]? = some (slot.load send dev).wr := by
      rw [chain, getElem?_append_left (by simpa using bound), getElem?_map, loaded, Option.map_some]
    rw [postQps, filterMap_cons, first, requestWrs, ih _ advanced]

theorem requestWrs_of_cleared (devs : List (Fin ndevs)) (slot : Slot) (cleared : slot.wr.numSge = 0) :
    (requestWrs send devs slot).filter (fun wr => wr.numSge ≠ 0) = [] := by
  induction devs generalizing slot with
  | nil => rfl
  | cons dev rest ih =>
    have still : (slot.load send dev).wr.numSge = 0 := by simp [Slot.load, cleared]
    rw [requestWrs, filter_cons_of_neg (by simpa using still)]
    exact ih _ still

/-- A work request that is at an offset of its data. -/
def wrAt (req : IbSendReq) (wr : IbSendWr) (offset length : Nat) : IbSendWr :=
  { wr with addr := req.data + offset, remoteAddr := req.remoteAddr + offset, length }

section
variable {req : IbSendReq} (small : req.size < 2 ^ 32)
include small

theorem load_wrAt (wr : IbSendWr) (offset length : Nat) (dev : Fin ndevs)
    (nonempty : min (req.size - offset) (send.chunkLength req.size dev) ≠ 0) :
    (⟨req, wrAt req wr offset length, offset⟩ : Slot).load send dev =
      ⟨req, wrAt req wr offset (min (req.size - offset) (send.chunkLength req.size dev)), offset⟩ := by
  have fits : (req.size - offset) % 2 ^ 32 = req.size - offset := Nat.mod_eq_of_lt (by omega)
  simp only [Slot.load, wrAt, fits, if_neg nonempty]

theorem load_cleared (wr : IbSendWr) (offset : Nat) (dev : Fin ndevs)
    (empty : min (req.size - offset) (send.chunkLength req.size dev) = 0) :
    ((⟨req, wr, offset⟩ : Slot).load send dev).wr.numSge = 0 := by
  have fits : (req.size - offset) % 2 ^ 32 = req.size - offset := Nat.mod_eq_of_lt (by omega)
  simp only [Slot.load, fits, empty, if_true]

theorem advance_wrAt (wr : IbSendWr) {offset length : Nat} (within : offset + length ≤ req.size) :
    (⟨req, wrAt req wr offset length, offset⟩ : Slot).advance =
      ⟨req, wrAt req wr (offset + length) length, offset + length⟩ := by
  have fits : (offset + length) % 2 ^ 32 = offset + length := Nat.mod_eq_of_lt (by omega)
  simp only [Slot.advance, wrAt, fits, min_eq_left within, add_assoc]

/-- The writes of a request are pieces of its data. -/
theorem requestWrs_writes (devs : List (Fin ndevs)) (usable : wr.numSge ≠ 0)
    (within : offset ≤ req.size) (length : Nat) :
    (requestWrs send devs ⟨req, wrAt req wr offset length, offset⟩).filter (fun wr => wr.numSge ≠ 0) =
      (pieces req.size offset (devs.map (send.chunkLength req.size))).map fun piece => wrAt req wr piece.1 piece.2 := by
  induction devs generalizing offset length with
  | nil => rfl
  | cons dev rest ih =>
    rw [requestWrs, map_cons, pieces]
    by_cases empty : min (req.size - offset) (send.chunkLength req.size dev) = 0
    · have cleared := load_cleared send small (wrAt req wr offset length) offset dev empty
      rw [filter_cons_of_neg (by simpa using cleared)]
      simp only [empty, if_true, map_nil]
      exact requestWrs_of_cleared send rest _ cleared
    · have fits : offset + min (req.size - offset) (send.chunkLength req.size dev) ≤ req.size := by omega
      rw [load_wrAt send small wr offset length dev empty, advance_wrAt small wr fits]
      simp only [empty, if_false, map_cons]
      have kept : (wrAt req wr offset (min (req.size - offset) (send.chunkLength req.size dev))).numSge ≠ 0 := usable
      rw [filter_cons, if_pos (decide_eq_true kept), ih fits]

/-- The writes of a request, by its shares of the queue pairs. -/
theorem writes_eq {r : Nat} (here : send.reqs[r]? = some req) :
    send.writes r = (pieces req.size 0 (send.qpDevs.map (send.chunkLength req.size))).map fun piece =>
      wrAt req (send.initialWr r req) piece.1 piece.2 := by
  have first : send.initialSlots[r]? = some ⟨req, send.initialWr r req, 0⟩ := by
    rw [initialSlots, getElem?_mapIdx, here, Option.map_some]
  rw [writes, posted, postQps_wrs send _ _ first]
  exact requestWrs_writes send small _ (show (send.initialWr r req).numSge ≠ 0 from Nat.one_ne_zero) (Nat.zero_le _) 0

end

/-! ### The chains -/

/-- What of the slots stays from one queue pair to the next. -/
structure Steady (slots : List Slot) : Prop where
  length : slots.length = send.reqs.length
  opcode : ∀ slot ∈ slots, slot.wr.opcode = if send.separateImm then .rdmaWrite else .rdmaWriteWithImm
  signaled : ∀ slot ∈ slots, slot.wr.signaled = !send.separateImm

theorem steady_initial : Steady send send.initialSlots := by
  refine ⟨length_mapIdx, fun slot member => ?_, fun slot member => ?_⟩ <;>
  · obtain ⟨r, bound, rfl⟩ := mem_mapIdx.mp member
    rfl

variable {send}

section
variable (steady : Steady send slots)
include steady

theorem Steady.map (step : Slot → Slot)
    (same : ∀ slot, (step slot).wr.opcode = slot.wr.opcode ∧ (step slot).wr.signaled = slot.wr.signaled) :
    Steady send (slots.map step) := by
  refine ⟨(length_map _).trans steady.length, fun slot member => ?_, fun slot member => ?_⟩
  · obtain ⟨before, isBefore, rfl⟩ := mem_map.mp member
    exact (same before).1.trans (steady.opcode before isBefore)
  · obtain ⟨before, isBefore, rfl⟩ := mem_map.mp member
    exact (same before).2.trans (steady.signaled before isBefore)

theorem Steady.chain_of_mem {chain : List IbSendWr} (member : chain ∈ send.postQps devs slots) :
    ∃ slots, Steady send slots ∧ chain = send.chain slots := by
  induction devs generalizing slots with
  | nil => cases member
  | cons dev rest ih =>
    have loaded := steady.map (·.load send dev) fun _ => ⟨rfl, rfl⟩
    rcases mem_cons.mp member with rfl | later
    · exact ⟨_, loaded, rfl⟩
    · exact ih (loaded.map Slot.advance fun _ => ⟨rfl, rfl⟩) later

theorem Steady.immediate (pos : 0 < send.reqs.length) :
    ∃ others last, send.chain slots = others ++ [last] ∧ last.opcode = .rdmaWriteWithImm ∧ last.signaled ∧
      ∀ wr ∈ others, wr.opcode = .rdmaWrite ∧ ¬ wr.signaled := by
  cases separate : send.separateImm with
  | true =>
    refine ⟨slots.map (·.wr), send.lastWr, by rw [chain, separate]; rfl, rfl, rfl, fun wr member => ?_⟩
    obtain ⟨slot, isSlot, rfl⟩ := mem_map.mp member
    rw [steady.opcode slot isSlot, steady.signaled slot isSlot, separate]
    decide
  | false =>
    -- the only request carries the immediate value
    have single : send.reqs.length = 1 := by
      by_contra more
      have several : send.separateImm = true := decide_eq_true (.inl (by omega))
      rw [separate] at several
      cases several
    obtain ⟨slot, rfl⟩ := length_eq_one_iff.mp (steady.length.trans single)
    refine ⟨[], slot.wr, by rw [chain, separate]; rfl, ?_, ?_, nofun⟩
    · rw [steady.opcode slot (.head _), separate]
      rfl
    · rw [steady.signaled slot (.head _), separate]
      rfl

theorem Steady.others (member : wr ∈ (send.chain slots).drop send.reqs.length) (writes : wr.numSge ≠ 0) :
    1 < send.reqs.length ∧ wr.remoteAddr = send.remCmplsRecords + send.slot * cmplsRecordBytes ∧
      wr.length = send.reqs.length * 4 := by
  rw [chain, drop_append_of_le_length (by simp [steady.length]), drop_eq_nil_of_le (by simp [steady.length])] at member
  split at member
  · rw [mem_singleton.mp member] at writes ⊢
    have several : 1 < send.reqs.length := by
      by_contra few
      simp [lastWr, few] at writes
    simp [lastWr, several]
  · cases member

end

theorem length_postQps (devs : List (Fin ndevs)) (slots : List Slot) :
    (send.postQps devs slots).length = devs.length := by
  induction devs generalizing slots with
  | nil => rfl
  | cons dev rest ih => simp [postQps, ih]

end

/-! ### Sends -/

theorem covers_wrAt (req : IbSendReq) (wr : IbSendWr) (offset length byte : Nat) :
    (wrAt req wr offset length).covers (req.remoteAddr + byte) = decide (offset ≤ byte ∧ byte < offset + length) := by
  refine decide_eq_decide.mpr ?_
  simp only [wrAt]
  omega

/-- The data of a request is written up to the offset reached. -/
theorem countP_writes (send : IbMultiSend ndevs) (here : send.reqs[r]? = some req) (small : req.size < 2 ^ 32)
    (byte : Nat) :
    (send.writes r).countP (·.covers (req.remoteAddr + byte)) =
      if byte < reached req.size 0 (send.qpDevs.map (send.chunkLength req.size)) then 1 else 0 := by
  rw [writes_eq send small here, countP_map]
  simp only [Function.comp_def, covers_wrAt, countP_pieces, zero_le, true_and]

theorem size_lt (group : IbSendGroup) (member : req ∈ group.send.reqs) : req.size < 2 ^ 32 :=
  (group.sizes req member).trans (by decide)

theorem mem_writes (group : IbSendGroup) (here : group.send.reqs[r]? = some req) (member : wr ∈ group.send.writes r) :
    ∃ offset length, offset + length ≤ req.size ∧
      (128 ∣ length ∨ offset + length = req.size) ∧ wr = wrAt req (group.send.initialWr r req) offset length := by
  have isReq := mem_of_getElem? here
  rw [writes_eq group.send (size_lt group isReq) here] at member
  obtain ⟨⟨offset, length⟩, isPiece, rfl⟩ := mem_map.mp member
  obtain ⟨within, kind⟩ := mem_pieces (Nat.zero_le _) isPiece
  refine ⟨offset, length, within, kind.imp_left fun isShare => ?_, rfl⟩
  obtain ⟨dev, -, rfl⟩ := mem_map.mp isShare
  rw [chunkLength_eq group (group.sizes req isReq)]
  exact Nat.dvd_mul_left _ _

/-- The data is handed out to the end iff it is before each device with the weight 0. -/
theorem all_reached_iff (group : IbSendGroup) (member : req ∈ group.send.reqs) (nonempty : 0 < req.size) :
    reached req.size 0 (group.send.qpDevs.map (group.send.chunkLength req.size)) = req.size ↔
      ∀ i dev, group.send.qpDevs[i]? = some dev → group.send.weights dev = 0 →
        req.size ≤ ((group.send.qpDevs.take i).map (group.send.chunkLength req.size)).sum := by
  have small := group.sizes req member
  rw [reached_eq_iff (Nat.zero_le _) (by simpa using sum_chunkLength group small)]
  simp only [Nat.zero_add, ← map_take, getElem?_map, Option.map_eq_some_iff]
  constructor
  · intro before i dev here none
    exact before i ⟨dev, here, (chunkLength_eq_zero_iff group small nonempty dev).mpr none⟩
  · rintro before i ⟨dev, here, empty⟩
    exact before i dev here ((chunkLength_eq_zero_iff group small nonempty dev).mp empty)

/-- A send writes every byte exactly once iff, for each request, the data is all handed
out before the first queue pair of a device with the weight 0. -/
theorem sent_once_iff (group : IbSendGroup) :
    group.send.SentOnce ↔ ∀ req ∈ group.send.reqs, ∀ i dev, group.send.qpDevs[i]? = some dev →
      group.send.weights dev = 0 →
        req.size ≤ ((group.send.qpDevs.take i).map (group.send.chunkLength req.size)).sum := by
  constructor
  · intro once req member i dev here none
    obtain ⟨r, bound, rfl⟩ := mem_iff_getElem.mp member
    have isReq := getElem?_eq_getElem bound
    rcases Nat.eq_zero_or_pos group.send.reqs[r].size with empty | nonempty
    · rw [empty]
      exact Nat.zero_le _
    refine (all_reached_iff group member nonempty).mp ?_ i dev here none
    refine Nat.le_antisymm (reached_le (Nat.zero_le _)) (Nat.le_of_not_lt fun short => ?_)
    have counted := once.bytes r _ isReq (reached group.send.reqs[r].size 0
      (group.send.qpDevs.map (group.send.chunkLength group.send.reqs[r].size)))
    rw [countP_writes _ isReq (size_lt group member), if_neg (lt_irrefl _), if_pos short] at counted
    cases counted
  · intro before
    refine ⟨fun r req isReq byte => ?_, fun r req isReq wr isWrite => ?_, fun r req isReq wr isWrite => ?_,
      fun chain member => ?_, fun chain member wr isOther writes => ?_, length_postQps _ _⟩
    · have member := mem_of_getElem? isReq
      rw [countP_writes _ isReq (size_lt group member)]
      rcases Nat.eq_zero_or_pos req.size with empty | nonempty
      · rw [Nat.le_zero.mp ((reached_le (Nat.zero_le req.size)).trans_eq empty), empty]
      · rw [(all_reached_iff group member nonempty).mpr (before req member)]
    · obtain ⟨offset, length, within, -, rfl⟩ := mem_writes group isReq isWrite
      exact ⟨offset, rfl, rfl, within⟩
    · obtain ⟨offset, length, -, kind, rfl⟩ := mem_writes group isReq isWrite
      exact kind.imp_right fun ends => (Nat.add_assoc _ _ _).trans (congrArg _ ends)
    · obtain ⟨slots, steady, rfl⟩ := (steady_initial group.send).chain_of_mem member
      exact steady.immediate group.reqs_pos
    · obtain ⟨slots, steady, rfl⟩ := (steady_initial group.send).chain_of_mem member
      exact steady.others isOther writes

/-- Two devices, the first with less than a hundredth of the speed: its weight is 0, and
its queue pair comes first. -/
def slowDeviceFirst : IbSendGroup where
  ndevs := 2
  ndevs_pos := Nat.two_pos
  devSpeeds := ![1, 1000]
  speeds_pos := by decide
  eventBasedLb := true
  send :=
    { slot := 0
      reqs := [⟨0x10000, 4096, 0x20000⟩]
      weights := ncclIbComputeLbWeights true ![1, 1000]
      qpDevs := [0, 1]
      immData := 4096
      oooRq := false
      ar := false
      arThreshold := 8192
      cmplsRecords := 0
      remCmplsRecords := 0 }
  weights := rfl
  used := by decide
  reqs_pos := by decide
  reqs_le := by decide
  sizes := by decide

/-- The empty chunk of the first queue pair keeps the second one from writing anything. -/
theorem no_byte_sent : slowDeviceFirst.send.writes 0 = [] ∧ ¬ slowDeviceFirst.send.SentOnce := by
  have none : slowDeviceFirst.send.writes 0 = [] := by decide +kernel
  refine ⟨none, fun once => ?_⟩
  have first := once.bytes 0 ⟨0x10000, 4096, 0x20000⟩ rfl 0
  cases first

end NcclCore.IbSendProofs
