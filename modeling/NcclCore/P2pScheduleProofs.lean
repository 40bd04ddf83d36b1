import Mathlib.Data.List.GetD
import NcclCore.P2pSchedule
import NcclCore.Lib.Residues
import NcclCore.Lib.Digits

/-! Every rank derives its schedule alone, so agreement has to come from the
shape of the enumeration. Listing the ranks node after node gives each rank a
position; a round is a pair of shifts, one of the group and one inside the
group, that every rank applies to its own position. -/
namespace NcclCore.P2pScheduleProofs
open Lib List

/-! ## The layout -/

/-- What the schedule needs of a layout: a node for each rank, inside the
node count. -/
structure Placed (comm : NodeLayout) : Prop where
  width : comm.rankToNode.length = comm.nRanks
  inside : ∀ node ∈ comm.rankToNode, node < comm.nNodes

private theorem assign_nodes_placed (firstRanks : List Nat) (found : List Nat × List Nat)
    (inside : ∀ node ∈ found.2, node < found.1.length) :
    (firstRanks.foldl assignNode found).2.length = found.2.length + firstRanks.length ∧
      ∀ node ∈ (firstRanks.foldl assignNode found).2,
        node < (firstRanks.foldl assignNode found).1.length := by
  induction firstRanks generalizing found with
  | nil => exact ⟨rfl, inside⟩
  | cons firstRank rest ih =>
    have stepInside : ∀ node ∈ (assignNode found firstRank).2,
        node < (assignNode found firstRank).1.length := by
      intro node member
      simp only [assignNode, mem_append, mem_singleton] at member ⊢
      by_cases known : firstRank ∈ found.1
      · simp only [known, ↓reduceIte]
        rcases member with old | rfl
        · exact inside node old
        · exact idxOf_lt_length_of_mem known
      · simp only [known, ↓reduceIte, length_append, length_singleton]
        rcases member with old | rfl
        · exact Nat.lt_succ_of_lt (inside node old)
        · exact Nat.lt_succ_of_le idxOf_le_length
    obtain ⟨width, placed⟩ := ih (assignNode found firstRank) stepInside
    refine ⟨?_, placed⟩
    rw [foldl_cons, width]
    simp only [assignNode, length_append, length_cons, length_nil]
    omega

theorem layout_placed (firstRanks : List Nat) : Placed (NodeLayout.ofFirstRanks firstRanks) := by
  obtain ⟨width, inside⟩ := assign_nodes_placed firstRanks ([], []) (by simp)
  exact ⟨by simpa [NodeLayout.ofFirstRanks] using width, inside⟩

/-- All ranks, listed node after node. -/
def order (comm : NodeLayout) : List Nat := comm.nodeRanks.flatten

variable {comm : NodeLayout} {rank : Nat}

theorem node_lt (placed : Placed comm) (bound : rank < comm.nRanks) : comm.node rank < comm.nNodes := by
  have inside : rank < comm.rankToNode.length := by rw [placed.width]; exact bound
  rw [NodeLayout.node, getD_eq_getElem _ _ inside]
  exact placed.inside _ (getElem_mem inside)

theorem mem_localRankToRank : rank ∈ comm.localRankToRank node ↔ rank < comm.nRanks ∧ comm.node rank = node := by
  simp [NodeLayout.localRankToRank, NodeLayout.node]

theorem order_perm (placed : Placed comm) : (order comm).Perm (range comm.nRanks) := by
  apply (perm_ext_iff_of_nodup _ nodup_range).mpr
  · intro rank
    simp only [order, NodeLayout.nodeRanks, mem_flatten, mem_map, mem_range]
    constructor
    · rintro ⟨ranks, ⟨node, _, rfl⟩, member⟩
      exact (mem_localRankToRank.mp member).1
    · intro bound
      exact ⟨_, ⟨comm.node rank, node_lt placed bound, rfl⟩, mem_localRankToRank.mpr ⟨bound, rfl⟩⟩
  · rw [order, nodup_flatten]
    constructor
    · intro ranks member
      obtain ⟨node, _, rfl⟩ := mem_map.mp member
      exact nodup_range.filter _
    · apply List.Pairwise.map _ _ (nodup_range (n := comm.nNodes))
      intro first second different rank left right
      exact different ((mem_localRankToRank.mp left).2.symm.trans (mem_localRankToRank.mp right).2)

theorem order_length (placed : Placed comm) : (order comm).length = comm.nRanks := by
  simpa using (order_perm placed).length_eq

/-! ## The group size divides every node -/

variable {groupSize : Nat}

private theorem group_size_step (ranks : Nat) (positive : 0 < groupSize) :
    let shrunk := if ranks % groupSize ≠ 0 ∨ ranks < groupSize then Nat.gcd groupSize ranks else groupSize
    0 < shrunk ∧ shrunk ∣ groupSize ∧ shrunk ∣ ranks := by
  split
  · exact ⟨Nat.gcd_pos_of_pos_left _ positive, Nat.gcd_dvd_left _ _, Nat.gcd_dvd_right _ _⟩
  next divides =>
    exact ⟨positive, Nat.dvd_refl _, Nat.dvd_of_mod_eq_zero (by omega)⟩

private theorem group_size_divides (nodes : List (List Nat)) (start : Nat) (positive : 0 < start) :
    let groupSize := nodes.foldl (fun groupSize ranks =>
      if ranks.length % groupSize ≠ 0 ∨ ranks.length < groupSize then Nat.gcd groupSize ranks.length
      else groupSize) start
    0 < groupSize ∧ groupSize ∣ start ∧ ∀ ranks ∈ nodes, groupSize ∣ ranks.length := by
  induction nodes generalizing start with
  | nil => simpa using positive
  | cons ranks rest ih =>
    obtain ⟨shrunkPositive, dividesStart, dividesRanks⟩ := group_size_step ranks.length positive
    obtain ⟨positiveRest, dividesShrunk, dividesRest⟩ := ih _ shrunkPositive
    refine ⟨positiveRest, dividesShrunk.trans dividesStart, ?_⟩
    exact forall_mem_cons.mpr ⟨dividesShrunk.trans dividesRanks, dividesRest⟩

private theorem maxLocalRanks_pos (placed : Placed comm) (bound : rank < comm.nRanks) : 0 < comm.maxLocalRanks := by
  have member := mem_localRankToRank.mpr ⟨bound, rfl⟩
  have counted : (comm.localRankToRank (comm.node rank)).length ∈ comm.nodeRanks.map length :=
    mem_map.mpr ⟨_, mem_map.mpr ⟨_, mem_range.mpr (node_lt placed bound), rfl⟩, rfl⟩
  refine lt_of_lt_of_le (length_pos_of_mem member) ?_
  rw [NodeLayout.maxLocalRanks, foldl_max]
  exact le_trans (le_max?_getD_of_mem counted) (le_max_right _ _)

theorem groupSize_spec (placed : Placed comm) (positive : 0 < paramGroupSize) (bound : rank < comm.nRanks) :
    0 < p2pSchedGroupSize comm paramGroupSize ∧
      ∀ ranks ∈ comm.nodeRanks, p2pSchedGroupSize comm paramGroupSize ∣ ranks.length := by
  have startPositive : 0 < if 1 < comm.nNodes then paramGroupSize else comm.maxLocalRanks := by
    split
    · exact positive
    · exact maxLocalRanks_pos placed bound
  obtain ⟨sizePositive, _, divides⟩ := group_size_divides comm.nodeRanks _ startPositive
  exact ⟨sizePositive, divides⟩

/-! ## Groups are blocks of the order -/

section
variable {nodes : List (List Nat)}

theorem groupTable_length (divides : ∀ ranks ∈ nodes, groupSize ∣ ranks.length)
    (node : Nat) : (groupTable groupSize node nodes).length * groupSize = nodes.flatten.length := by
  induction nodes generalizing node with
  | nil => simp [groupTable]
  | cons ranks rest ih =>
    have restDivides : ∀ other ∈ rest, groupSize ∣ other.length :=
      fun other member => divides other (mem_cons_of_mem _ member)
    simp [groupTable, add_mul,
      Nat.div_mul_cancel (divides ranks mem_cons_self), ih restDivides]

/-- A group is a block of `groupSize` consecutive entries of the order. -/
theorem groupTable_block (all : List (List Nat)) (node : Nat) (suffix : all.drop node = nodes)
    (divides : ∀ ranks ∈ nodes, groupSize ∣ ranks.length) (inside : group < (groupTable groupSize node nodes).length)
    (small : offset < groupSize) :
    (all.getD ((groupTable groupSize node nodes).getD group (0, 0)).1 []).getD
        (((groupTable groupSize node nodes).getD group (0, 0)).2 + offset) 0 =
      nodes.flatten.getD (group * groupSize + offset) 0 := by
  induction nodes generalizing node group with
  | nil => simp [groupTable] at inside
  | cons ranks rest ih =>
    have restDivides : ∀ other ∈ rest, groupSize ∣ other.length :=
      fun other member => divides other (mem_cons_of_mem _ member)
    have here : all.getD node [] = ranks := by
      rw [getD_eq_getElem?_getD, ← head?_drop, suffix]
      rfl
    have below : all.drop (node + 1) = rest := by
      rw [← drop_drop, suffix]
      rfl
    have exactSize := Nat.div_mul_cancel (divides ranks mem_cons_self)
    simp only [groupTable] at inside ⊢
    by_cases own : group < ranks.length / groupSize
    · have fits : group * groupSize + offset < ranks.length := exactSize ▸ digits_lt own small
      have entry : (map (fun index => (node, index * groupSize))
          (range (ranks.length / groupSize))).getD group (0, 0) = (node, group * groupSize) := by
        rw [getD_eq_getElem _ _ (by simpa using own)]
        simp
      rw [getD_append _ _ _ _ (by simpa using own), entry, here, flatten_cons, getD_append _ _ _ _ fits]
    · have skipped : (map (fun index => (node, index * groupSize))
          (range (ranks.length / groupSize))).length ≤ group := by simpa using own
      rw [getD_append_right _ _ _ _ skipped]
      simp only [length_map, length_range, length_append] at inside ⊢
      rw [ih (node + 1) below restDivides (by omega), flatten_cons]
      have past : ranks.length ≤ group * groupSize + offset := by
        have reached := Nat.mul_le_mul_right groupSize (not_lt.mp own)
        omega
      rw [getD_append_right _ _ _ _ past]
      congr 1
      rw [Nat.sub_mul]
      have reached := Nat.mul_le_mul_right groupSize (not_lt.mp own)
      omega

private theorem flatten_getElem? (inside : offset < (nodes.getD node []).length) :
    nodes.flatten[((nodes.take node).map length).sum + offset]? = (nodes.getD node [])[offset]? := by
  induction nodes generalizing node with
  | nil => simp at inside
  | cons ranks rest ih =>
    cases node with
    | zero =>
      simp only [getD_cons_zero] at inside
      simp [getElem?_append_left inside]
    | succ =>
      simp only [getD_cons_succ] at inside ⊢
      rw [← ih inside, flatten_cons, take_succ_cons, map_cons, sum_cons, add_assoc,
        getElem?_append_right le_self_add, Nat.add_sub_cancel_left]

end

private theorem filter_range_index (below : rank < bound) (kept : keep rank = true) :
    ((range bound).filter keep)[((range rank).filter keep).length]? = some rank := by
  obtain ⟨rest, rfl⟩ := Nat.exists_eq_add_of_lt below
  rw [add_assoc, range_add, range_succ_eq_map]
  simp [kept]

/-- A rank's position in the order: the ranks of earlier nodes, then its own
place on the node. -/
def position (comm : NodeLayout) (rank : Nat) : Nat :=
  ((comm.nodeRanks.take (comm.node rank)).map length).sum + comm.localRank rank

theorem order_position (placed : Placed comm) (bound : rank < comm.nRanks) :
    (order comm)[position comm rank]? = some rank := by
  have own : comm.nodeRanks.getD (comm.node rank) [] = comm.localRankToRank (comm.node rank) := by
    have inside : comm.node rank < comm.nodeRanks.length := by
      simpa [NodeLayout.nodeRanks] using node_lt placed bound
    rw [getD_eq_getElem _ _ inside]
    simp [NodeLayout.nodeRanks]
  have found : (comm.localRankToRank (comm.node rank))[comm.localRank rank]? = some rank :=
    filter_range_index bound (by simp [NodeLayout.node])
  rw [order, position, flatten_getElem? (by rw [own]; exact (List.getElem?_eq_some_iff.mp found).1), own, found]

theorem position_lt (placed : Placed comm) (bound : rank < comm.nRanks) : position comm rank < comm.nRanks := by
  rw [← order_length placed]
  exact (List.getElem?_eq_some_iff.mp (order_position placed bound)).1

/-- The group and the place in the group that a rank computes for itself are
the quotient and the remainder of its position. -/
theorem position_split (divides : ∀ ranks ∈ comm.nodeRanks, groupSize ∣ ranks.length) (rank : Nat) :
    position comm rank = groupIndex comm groupSize rank * groupSize + comm.localRank rank % groupSize := by
  have earlier : ∀ nodes : List (List Nat), (∀ ranks ∈ nodes, groupSize ∣ ranks.length) →
      (nodes.map length).sum = (nodes.map fun ranks => ranks.length / groupSize).sum * groupSize := by
    intro nodes exact
    induction nodes with
    | nil => simp
    | cons ranks rest ih =>
      rw [map_cons, sum_cons, map_cons, sum_cons, add_mul,
        ih fun other member => exact other (mem_cons_of_mem _ member),
        Nat.div_mul_cancel (exact ranks mem_cons_self)]
  rw [position, groupIndex, add_mul, earlier _ fun ranks member => divides ranks (mem_of_mem_take member)]
  have split := Nat.div_add_mod (comm.localRank rank) groupSize
  rw [mul_comm] at split
  omega

/-! ## Rounds are shifts of positions -/

/-- The position reached from `place` by moving `shift.1` groups and
`shift.2` places inside the group. -/
def forward (nGroups groupSize : Nat) (shift : Nat × Nat) (place : Nat) : Nat :=
  (place / groupSize + shift.1) % nGroups * groupSize + (place % groupSize + shift.2) % groupSize

def backward (nGroups groupSize : Nat) (shift : Nat × Nat) (place : Nat) : Nat :=
  (place / groupSize + nGroups - shift.1) % nGroups * groupSize +
    (place % groupSize + groupSize - shift.2) % groupSize

/-- The group deltas, in the order the quadratic loop visits them. -/
def groupDeltas (nGroups : Nat) : List Nat :=
  ((range (pow2Up nGroups)).map fun round => triangle round % pow2Up nGroups).filter (· < nGroups)

/-- The shifts of the successive rounds. They do not depend on the rank. -/
def shifts (nGroups groupSize : Nat) : List (Nat × Nat) :=
  (groupDeltas nGroups).flatMap fun groupDelta => (range groupSize).map fun delta => (groupDelta, delta)

private theorem groupRounds_eq (nGroups width : Nat) (rounds : Nat → List P2pPeers) (left groupRound : Nat) :
    groupRounds nGroups (2 ^ width) rounds left groupRound (triangle groupRound % 2 ^ width) =
      (((range' groupRound left).map fun round => triangle round % 2 ^ width).filter
        (· < nGroups)).flatMap rounds := by
  induction left generalizing groupRound with
  | zero => rfl
  | succ left ih =>
    have update : (triangle groupRound % 2 ^ width + (groupRound + 1)) &&& (2 ^ width - 1) =
        triangle (groupRound + 1) % 2 ^ width := by
      rw [Nat.and_two_pow_sub_one_eq_mod, triangle_succ, Nat.mod_add_mod]
    rw [groupRounds, update, ih, range'_succ]
    by_cases kept : triangle groupRound % 2 ^ width < nGroups <;> simp [kept]

theorem groupDeltas_perm (nGroups : Nat) : (groupDeltas nGroups).Perm (range nGroups) := by
  have filtered := (triangle_mod_perm (log2Up nGroups)).filter (· < nGroups)
  refine filtered.trans (perm_range_of_nodup (nodup_range.filter _) ?_ ?_)
  · obtain ⟨extra, split⟩ := Nat.exists_eq_add_of_le (le_pow2Up nGroups)
    rw [pow2Up] at split
    rw [split, range_add]
    simp [filter_eq_self.mpr]
  · intro delta member
    simpa using (mem_filter.mp member).2

theorem mem_shifts : shift ∈ shifts nGroups groupSize ↔ shift.1 < nGroups ∧ shift.2 < groupSize := by
  simp only [shifts, mem_flatMap, mem_map, mem_range]
  constructor
  · rintro ⟨groupDelta, member, delta, small, rfl⟩
    exact ⟨mem_range.mp ((groupDeltas_perm nGroups).mem_iff.mp member), small⟩
  · rintro ⟨group, small⟩
    exact ⟨shift.1, (groupDeltas_perm nGroups).mem_iff.mpr (mem_range.mpr group), shift.2, small, rfl⟩

theorem shifts_nodup (nGroups groupSize : Nat) : (shifts nGroups groupSize).Nodup := by
  apply nodup_flatMap.mpr
  constructor
  · intro groupDelta _
    exact nodup_range.map fun _ _ same => (Prod.mk.inj same).2
  · have distinct := (groupDeltas_perm nGroups).nodup_iff.mpr nodup_range
    apply distinct.imp
    intro first second different shift left right
    obtain ⟨_, _, rfl⟩ := mem_map.mp left
    obtain ⟨_, _, same⟩ := mem_map.mp right
    exact different (Prod.mk.inj same).1.symm

/-- The first round stays in place: the loop starts at delta zero. -/
theorem shifts_head (groups : 0 < nGroups) (size : 0 < groupSize) :
    (shifts nGroups groupSize).head? = some (0, 0) := by
  obtain ⟨rest, rounds⟩ := Nat.exists_eq_succ_of_ne_zero (n := pow2Up nGroups) (Nat.two_pow_pos _).ne'
  obtain ⟨others, places⟩ := Nat.exists_eq_succ_of_ne_zero (pos_iff_ne_zero.mp size)
  have first : triangle 0 % pow2Up nGroups = 0 := by simp [triangle]
  rw [shifts, groupDeltas, rounds, range_succ_eq_map, map_cons, ← rounds, first, filter_cons,
    if_pos (by simpa using groups), places, range_succ_eq_map]
  rfl

theorem shifts_length (nGroups groupSize : Nat) : (shifts nGroups groupSize).length = nGroups * groupSize := by
  simp [shifts, (groupDeltas_perm nGroups).length_eq]

private theorem place_digits (inside : place < nGroups * groupSize) :
    place / groupSize < nGroups ∧ place % groupSize < groupSize ∧
      place / groupSize * groupSize + place % groupSize = place := by
  have positive := Nat.pos_of_mul_pos_left (Nat.lt_of_le_of_lt (Nat.zero_le _) inside)
  exact ⟨Nat.div_lt_of_lt_mul (by rwa [Nat.mul_comm]), Nat.mod_lt _ positive, by
    rw [Nat.mul_comm]; exact Nat.div_add_mod place groupSize⟩

section
variable (member : shift ∈ shifts nGroups groupSize)
include member

theorem forward_lt :
    forward nGroups groupSize shift place < nGroups * groupSize := by
  obtain ⟨group, small⟩ := mem_shifts.mp member
  exact digits_lt (Nat.mod_lt _ group.pos) (Nat.mod_lt _ small.pos)

theorem backward_lt :
    backward nGroups groupSize shift place < nGroups * groupSize := by
  obtain ⟨group, small⟩ := mem_shifts.mp member
  exact digits_lt (Nat.mod_lt _ group.pos) (Nat.mod_lt _ small.pos)

/-- Moving forward and moving back by the same shift are inverse. -/
theorem forward_eq_iff (hp : place < nGroups * groupSize) (ht : target < nGroups * groupSize) :
    forward nGroups groupSize shift place = target ↔ backward nGroups groupSize shift target = place := by
  obtain ⟨group, small⟩ := mem_shifts.mp member
  obtain ⟨placeGroup, placeLocal, placeShape⟩ := place_digits hp
  obtain ⟨targetGroup, targetLocal, targetShape⟩ := place_digits ht
  have groups := ring_shift_iff placeGroup targetGroup group
  have locals := ring_shift_iff placeLocal targetLocal small
  constructor
  · intro reached
    rw [← targetShape] at reached
    obtain ⟨sameGroup, sameLocal⟩ := (digits_inj (Nat.mod_lt _ small.pos) targetLocal).mp reached
    rw [backward, groups.mp sameGroup, locals.mp sameLocal, placeShape]
  · intro reached
    rw [← placeShape] at reached
    obtain ⟨sameGroup, sameLocal⟩ := (digits_inj (Nat.mod_lt _ small.pos) placeLocal).mp reached
    rw [forward, groups.mpr sameGroup, locals.mpr sameLocal, targetShape]

end

theorem forward_inj_shift (left : shift ∈ shifts nGroups groupSize) (right : other ∈ shifts nGroups groupSize)
    (same : forward nGroups groupSize shift place = forward nGroups groupSize other place) : shift = other := by
  obtain ⟨leftGroup, leftSmall⟩ := mem_shifts.mp left
  obtain ⟨rightGroup, rightSmall⟩ := mem_shifts.mp right
  obtain ⟨groups, locals⟩ := (digits_inj (Nat.mod_lt _ leftSmall.pos) (Nat.mod_lt _ leftSmall.pos)).mp same
  exact Prod.ext (add_mod_right_injective leftGroup rightGroup groups)
    (add_mod_right_injective leftSmall rightSmall locals)

theorem backward_inj_shift (hp : place < nGroups * groupSize) (left : shift ∈ shifts nGroups groupSize)
    (right : other ∈ shifts nGroups groupSize)
    (same : backward nGroups groupSize shift place = backward nGroups groupSize other place) : shift = other := by
  have fromLeft := (forward_eq_iff left (backward_lt left) hp).mpr rfl
  have fromRight := (forward_eq_iff right (backward_lt right) hp).mpr rfl
  rw [← same] at fromRight
  exact forward_inj_shift left right (fromLeft.trans fromRight.symm)

/-- What a rank at `place` does in the round of `shift`. -/
def peersAt (comm : NodeLayout) (nGroups groupSize place : Nat) (shift : Nat × Nat) : P2pPeers :=
  { sendRank := (order comm).getD (forward nGroups groupSize shift place) 0
    recvRank := (order comm).getD (backward nGroups groupSize shift place) 0 }

section
variable {comm : NodeLayout}
variable (placed : Placed comm)
include placed

section
variable (divides : ∀ ranks ∈ comm.nodeRanks, groupSize ∣ ranks.length)
include divides

private theorem nGroups_eq (positive : 0 < groupSize) :
    (groupTable groupSize 0 comm.nodeRanks).length = comm.nRanks / groupSize ∧
      comm.nRanks / groupSize * groupSize = comm.nRanks := by
  have total := groupTable_length divides 0
  rw [show comm.nodeRanks.flatten.length = comm.nRanks from order_length placed] at total
  have quotient : comm.nRanks / groupSize = (groupTable groupSize 0 comm.nodeRanks).length := by
    rw [← total, Nat.mul_div_cancel _ positive]
  exact ⟨quotient.symm, by rw [quotient]; exact total⟩

variable (count : (groupTable groupSize 0 comm.nodeRanks).length = nGroups) (positive : 0 < groupSize) (rank : Nat)
include count positive
omit placed

/-- The rounds of one group delta are the shifts that start with it. -/
private theorem groupDeltaRounds_eq (small : groupDelta < nGroups) :
    groupDeltaRounds comm (groupTable groupSize 0 comm.nodeRanks) groupSize nGroups
        (groupIndex comm groupSize rank) (comm.localRank rank % groupSize) groupDelta =
      (range groupSize).map fun delta =>
        peersAt comm nGroups groupSize (position comm rank) (groupDelta, delta) := by
  have localSmall := Nat.mod_lt (comm.localRank rank) positive
  have high : position comm rank / groupSize = groupIndex comm groupSize rank := by
    rw [position_split divides, digits_div localSmall]
  have low : position comm rank % groupSize = comm.localRank rank % groupSize := by
    rw [position_split divides, Nat.mul_add_mod_of_lt localSmall]
  apply map_congr_left
  intro delta _
  have groupBound : ∀ group, group % nGroups <
      (groupTable groupSize 0 comm.nodeRanks).length := by
    intro group
    rw [count]
    exact Nat.mod_lt _ small.pos
  have inGroup (group place : Nat) : rankInGroup comm (groupTable groupSize 0 comm.nodeRanks)
      (group % nGroups) (place % groupSize) = (order comm).getD _ 0 :=
    groupTable_block comm.nodeRanks 0 rfl divides (groupBound group) (Nat.mod_lt place positive)
  simp [peersAt, forward, backward, high, low, inGroup]

/-- The quadratic loop applies the shifts in turn. -/
private theorem groupRounds_shifts :
    groupRounds nGroups (pow2Up nGroups)
        (groupDeltaRounds comm (groupTable groupSize 0 comm.nodeRanks) groupSize nGroups
          (groupIndex comm groupSize rank) (comm.localRank rank % groupSize))
        (pow2Up nGroups) 0 0 =
      (shifts nGroups groupSize).map
        (peersAt comm nGroups groupSize (position comm rank)) := by
  have unrolled := groupRounds_eq nGroups (log2Up nGroups)
    (groupDeltaRounds comm (groupTable groupSize 0 comm.nodeRanks) groupSize nGroups
      (groupIndex comm groupSize rank) (comm.localRank rank % groupSize)) (pow2Up nGroups) 0
  rw [show triangle 0 % 2 ^ log2Up nGroups = 0 by simp [triangle], ← pow2Up, ← range_eq_range'] at unrolled
  rw [unrolled, shifts, map_flatMap]
  apply flatMap_congr
  intro groupDelta member
  rw [groupDeltaRounds_eq divides count positive rank
    (mem_range.mp ((groupDeltas_perm _).mem_iff.mp member)), map_map]
  rfl

end

/-- No error branch is taken, and the schedule applies the shifts in turn. -/
theorem schedule_eq (positive : 0 < paramGroupSize) (bound : rank < comm.nRanks)
    (size : groupSize = p2pSchedGroupSize comm paramGroupSize) :
    ncclP2pSchedule comm paramGroupSize rank =
      .ok ((shifts (comm.nRanks / groupSize) groupSize).map
        (peersAt comm (comm.nRanks / groupSize) groupSize (position comm rank))) := by
  obtain ⟨sizePositive, divides⟩ := groupSize_spec placed positive bound
  rw [← size] at sizePositive divides
  obtain ⟨count, total⟩ := nGroups_eq placed divides sizePositive
  have noRemainder : comm.nodeRanks.any (fun ranks => ranks.length % groupSize != 0) = false := by
    simp only [any_eq_false, bne_iff_ne, ne_eq, Decidable.not_not]
    intro ranks member
    exact Nat.mod_eq_zero_of_dvd (divides ranks member)
  have full : (shifts (comm.nRanks / groupSize) groupSize).length = comm.nRanks := by
    rw [shifts_length, total]
  simp [ncclP2pSchedule, ← size, noRemainder, count,
    groupRounds_shifts divides count sizePositive rank, full]

/-! ## Agreement between the ranks -/

private theorem order_getD_inj (hf : first < comm.nRanks) (hs : second < comm.nRanks)
    (same : (order comm).getD first 0 = (order comm).getD second 0) : first = second := by
  rw [← order_length placed] at hf hs
  rw [getD_eq_getElem _ _ hf, getD_eq_getElem _ _ hs] at same
  exact ((order_perm placed).nodup_iff.mpr nodup_range).getElem_inj_iff.mp same

private theorem order_getD_lt (inside : place < comm.nRanks) :
    (order comm).getD place 0 < comm.nRanks := by
  rw [← order_length placed] at inside
  rw [getD_eq_getElem _ _ inside]
  exact mem_range.mp ((order_perm placed).mem_iff.mp (getElem_mem inside))

private theorem order_eq_iff (inside : place < comm.nRanks) (bound : rank < comm.nRanks) :
    (order comm).getD place 0 = rank ↔ place = position comm rank := by
  have own : (order comm).getD (position comm rank) 0 = rank := by
    rw [getD_eq_getElem?_getD, order_position placed bound]
    rfl
  constructor
  · intro same
    exact order_getD_inj placed inside (position_lt placed bound) (same.trans own.symm)
  · rintro rfl
    exact own

variable (total : nGroups * groupSize = comm.nRanks)
include total

/-- A row is a permutation when different shifts lead to different places. -/
private theorem row_perm (move : Nat × Nat → Nat) (inside : ∀ shift ∈ shifts nGroups groupSize, move shift < comm.nRanks)
    (distinct : ∀ shift ∈ shifts nGroups groupSize,
      ∀ other ∈ shifts nGroups groupSize, move shift = move other → shift = other) :
    ((shifts nGroups groupSize).map fun shift => (order comm).getD (move shift) 0).Perm
      (range comm.nRanks) := by
  apply perm_range_of_nodup
  · apply List.Nodup.map_on _ (shifts_nodup _ _)
    intro shift left other right same
    exact distinct shift left other right (order_getD_inj placed (inside shift left) (inside other right) same)
  · rw [length_map, shifts_length, total]
  · intro rank member
    obtain ⟨shift, held, rfl⟩ := mem_map.mp member
    exact order_getD_lt placed (inside shift held)

theorem shifted_rows_consistent :
    ConsistentSchedule comm.nRanks fun rank => (shifts nGroups groupSize).map
      (peersAt comm nGroups groupSize (position comm rank)) := by
  have full : (shifts nGroups groupSize).length = comm.nRanks := by
    rw [shifts_length, total]
  have forwardInside : ∀ place, ∀ shift ∈ shifts nGroups groupSize,
      forward nGroups groupSize shift place < comm.nRanks :=
    fun place shift member => Nat.lt_of_lt_of_eq (forward_lt member) total
  have backwardInside : ∀ place, ∀ shift ∈ shifts nGroups groupSize,
      backward nGroups groupSize shift place < comm.nRanks :=
    fun place shift member => Nat.lt_of_lt_of_eq (backward_lt member) total
  have place : ∀ rank < comm.nRanks, position comm rank < nGroups * groupSize :=
    fun rank bound => Nat.lt_of_lt_of_eq (position_lt placed bound) total.symm
  have matched : ∀ i < comm.nRanks, ∀ j < comm.nRanks, ∀ shift ∈ shifts nGroups groupSize,
      ((peersAt comm nGroups groupSize (position comm i) shift).sendRank = j ↔
        (peersAt comm nGroups groupSize (position comm j) shift).recvRank = i) := by
    intro i hi j hj shift member
    rw [peersAt, peersAt, order_eq_iff placed (forwardInside _ _ member) hj,
      order_eq_iff placed (backwardInside _ _ member) hi]
    exact forward_eq_iff member (place i hi) (place j hj)
  refine ⟨fun rank _ => by rw [length_map, full], ?_, ?_, ?_, ?_, ?_⟩
  · intro rank _
    rw [map_map]
    exact row_perm placed total _ (forwardInside _) fun _ left _ right => forward_inj_shift left right
  · intro rank bound
    rw [map_map]
    exact row_perm placed total _ (backwardInside _)
      fun _ left _ right => backward_inj_shift (place rank bound) left right
  · intro round bound
    rw [← full] at bound
    have member := getElem_mem bound
    apply map_range_perm
    · intro rank _
      rw [getD_eq_getElem _ _ (by rwa [length_map]), getElem_map]
      exact order_getD_lt placed (forwardInside _ _ member)
    · intro i hi j hj same
      rw [getD_eq_getElem _ _ (by rwa [length_map]), getElem_map,
        getD_eq_getElem _ _ (by rwa [length_map]), getElem_map] at same
      have target := order_getD_lt placed (forwardInside (position comm j) _ member)
      have left := (matched i hi _ target _ member).mp same
      have right := (matched j hj _ target _ member).mp rfl
      exact left.symm.trans right
  · intro i hi j hj round bound
    rw [← full] at bound
    rw [getD_eq_getElem _ _ (by rwa [length_map]), getElem_map,
      getD_eq_getElem _ _ (by rwa [length_map]), getElem_map]
    exact matched i hi j hj _ (getElem_mem bound)
  · intro rank bound
    obtain ⟨group, small, shape⟩ := place_digits (place rank bound)
    have start := shifts_head group.pos small.pos
    have stays : forward nGroups groupSize (0, 0) (position comm rank) = position comm rank := by
      rw [forward, add_zero, add_zero, Nat.mod_eq_of_lt group, Nat.mod_mod, shape]
    have member : (0, 0) ∈ shifts nGroups groupSize := mem_shifts.mpr ⟨group.pos, small.pos⟩
    have returns := (forward_eq_iff member (place rank bound) (place rank bound)).mp stays
    rw [head?_map, start, Option.map_some, peersAt, stays, returns,
      (order_eq_iff placed (position_lt placed bound) bound).mpr rfl]

end

/-- Whatever nodes the ranks were found on, and whatever group size is asked
for, every rank computes a schedule without error and the schedules agree. -/
theorem p2p_schedules_agree (firstRanks : List Nat) {paramGroupSize : Nat} (positive : 0 < paramGroupSize) :
    ∃ schedule : Nat → List P2pPeers,
      (∀ rank < firstRanks.length,
        ncclP2pSchedule (NodeLayout.ofFirstRanks firstRanks) paramGroupSize rank = .ok (schedule rank)) ∧
      ConsistentSchedule firstRanks.length schedule := by
  have placed := layout_placed firstRanks
  refine ⟨_, fun rank bound => schedule_eq placed positive bound rfl, ?_⟩
  rcases eq_zero_or_pos firstRanks.length with empty | nonempty
  · rw [empty]
    exact ⟨by simp, by simp, by simp, by simp, by simp, by simp⟩
  · obtain ⟨sizePositive, divides⟩ := groupSize_spec placed positive nonempty
    exact shifted_rows_consistent placed (nGroups_eq placed divides sizePositive).2

theorem p2p_schedules_agree_uneven :
    ∃ schedule : Nat → List P2pPeers,
      (∀ rank < 6, ncclP2pSchedule (NodeLayout.ofFirstRanks [0, 5, 0, 3, 5, 5]) 8 rank = .ok (schedule rank)) ∧
      ConsistentSchedule 6 schedule :=
  p2p_schedules_agree [0, 5, 0, 3, 5, 5] (by decide)

end NcclCore.P2pScheduleProofs
