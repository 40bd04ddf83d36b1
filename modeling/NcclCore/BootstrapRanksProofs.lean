import NcclCore.BootstrapRootProofs

/-! The messages of all ranks to the roots, in a normal start and in one that grows a parent,
and what each rank learns of the next one. -/
namespace NcclCore.BootstrapRanksProofs
open Lib BootstrapRootProofs List
open StartedRanks hiding rank

section
variable {Address Info α : Type} [Zero Address] (self : BootstrapRank Address Info)

/-- The calls that tell or ask something about the ring. -/
def isTold : BootstrapCall Address Info → Bool
  | .sendToRoot _ _ => true
  | .bootstrapSend _ _ => true
  | call => call.isRecv

theorem ringCalls_filterMap (quiet : ∀ call, isTold call = false → f call = none) :
    self.ringCalls.filterMap f =
      (if 0 ≤ self.currRoot then (f (.sendToRoot self.currRoot self.info)).toList else []) ++
        self.sendToPrevPeer.filterMap f ++ self.sendToPrevRoot.filterMap f ++
        (if 0 ≤ self.currRoot then (f .socketRecv).toList else []) ++ self.recvFromNextPeer.filterMap f := by
  have listen : self.listenCalls.filterMap f = [] := by
    unfold BootstrapRank.listenCalls
    split <;> simp [quiet .netGetDevice rfl, quiet .netListen rfl, quiet (.createListenSocket .ring) rfl]
  have own : self.sendToOwnRoot.filterMap f =
      if 0 ≤ self.currRoot then (f (.sendToRoot self.currRoot self.info)).toList else [] := by
    unfold BootstrapRank.sendToOwnRoot
    split
    · rw [filterMap_cons_none (quiet _ rfl), filterMap_eq_flatMap_toList]
      simp
    · rfl
  have recv : self.recvFromRoot.filterMap f = if 0 ≤ self.currRoot then (f .socketRecv).toList else [] := by
    unfold BootstrapRank.recvFromRoot
    split
    · rw [filterMap_eq_flatMap_toList]
      simp [quiet .ncclSocketInit rfl, quiet .ncclSocketAccept rfl, quiet (.ncclSocketClose false) rfl,
        quiet (.ncclSocketClose true) rfl]
    · rfl
  have first : f (.ncclCalloc .state) = none := quiet _ rfl
  have last : f (if self.netEnable then .netRingConnect else .socketRingConnect) = none := by
    split <;> exact quiet _ rfl
  simp [BootstrapRank.ringCalls, filterMap_cons_none first, listen,
    own, recv, filterMap_cons_none last]

theorem ringCalls_toRoot (root : Nat) :
    self.ringCalls.filterMap (·.toRoot root) =
      (if self.currRoot = root then [self.info] else []) ++ self.sendToPrevRoot.filterMap (·.toRoot root) := by
  rw [ringCalls_filterMap _ fun call quiet => by cases call <;> first | rfl | cases quiet]
  have peer : self.sendToPrevPeer.filterMap (·.toRoot (root : Int)) = [] := by
    unfold BootstrapRank.sendToPrevPeer
    split <;> rfl
  have recv : self.recvFromNextPeer.filterMap (·.toRoot (root : Int)) = [] := by
    unfold BootstrapRank.recvFromNextPeer
    split <;> rfl
  rw [peer, recv]
  by_cases here : self.currRoot = root <;> simp [here, BootstrapCall.toRoot]

theorem ringCalls_toPeer (peer : Int) :
    self.ringCalls.filterMap (·.toPeer peer) = self.sendToPrevPeer.filterMap (·.toPeer peer) := by
  rw [ringCalls_filterMap _ fun call quiet => by cases call <;> first | rfl | cases quiet]
  have root : self.sendToPrevRoot.filterMap (·.toPeer peer) = [] := by
    unfold BootstrapRank.sendToPrevRoot
    dsimp only
    split <;> rfl
  have recv : self.recvFromNextPeer.filterMap (·.toPeer peer) = [] := by
    unfold BootstrapRank.recvFromNextPeer
    split <;> rfl
  rw [root, recv]
  simp [BootstrapCall.toPeer]

theorem ringCalls_recv :
    self.ringCalls.filter (·.isRecv) = (if 0 ≤ self.currRoot then [.socketRecv] else []) ++ self.recvFromNextPeer := by
  rw [← filterMap_eq_filter, ringCalls_filterMap _ fun call quiet => by cases call <;> first | rfl | cases quiet]
  have peer : self.sendToPrevPeer.filterMap (Option.guard (·.isRecv)) = [] := by
    unfold BootstrapRank.sendToPrevPeer
    split <;> rfl
  have root : self.sendToPrevRoot.filterMap (Option.guard (·.isRecv)) = [] := by
    unfold BootstrapRank.sendToPrevRoot
    dsimp only
    split <;> rfl
  have recv : self.recvFromNextPeer.filterMap (Option.guard (·.isRecv)) = self.recvFromNextPeer := by
    unfold BootstrapRank.recvFromNextPeer
    split <;> rfl
  rw [peer, root, recv]
  simp [BootstrapCall.isRecv]

end

section
variable {Address Info : Type} [Zero Address] [Zero Info] {ranks : StartedRanks Address Info} {r root : Nat}

section
variable (ranks : StartedRanks Address Info)

/-- The parts of the roots. -/
structure Split : Prop where
  within : ranks.offset < ranks.nRanks
  positive : 0 < ranks.nRoots
  enough : ranks.nRoots ≤ ranks.nRanks - ranks.offset

theorem split : Split ranks := by
  have valid := ranks.valid
  cases kind : ranks.kind with
  | normal | grow =>
    simp only [kind] at valid
    constructor <;> simp only [offset, nRoots, kind] <;> omega

theorem rank_offset (r : Nat) : (ranks.rank r).offset = ranks.offset := by
  have valid := ranks.valid
  cases kind : ranks.kind with
  | normal => simp [BootstrapRank.offset, StartedRanks.rank, offset, kind]
  | grow parentRanks =>
    simp only [kind] at valid
    by_cases existing : r < parentRanks
    · simp [BootstrapRank.offset, StartedRanks.rank, offset, kind, existing, Nat.cast_sub valid.1]
    · simp [BootstrapRank.offset, StartedRanks.rank, offset, kind, existing, Nat.cast_sub valid.1,
        show parentRanks - 1 ≤ r by omega]

end

theorem rank_nHandles (above : ranks.offset ≤ r) : (ranks.rank r).nHandles = ranks.nRoots := by
  cases kind : ranks.kind with
  | normal => simp [StartedRanks.rank, nRoots, kind]
  | grow =>
    simp only [offset, kind] at above
    simp [StartedRanks.rank, nRoots, kind, above]

theorem currRoot_below (below : r < ranks.offset) : (ranks.rank r).currRoot = -1 := by
  rw [BootstrapRank.currRoot, rank_offset]
  exact if_pos (.inr (by simpa [StartedRanks.rank] using below))

theorem currRoot_above (above : ranks.offset ≤ r) :
    (ranks.rank r).currRoot = rootIdFromRank r ranks.nRanks ranks.nRoots ranks.offset := by
  rw [BootstrapRank.currRoot, rank_offset, rank_nHandles above]
  rfl

section
variable (ranks : StartedRanks Address Info)

def firstOf (root : Nat) : Nat :=
  first ranks.offset (ranks.nRanks - ranks.offset) ranks.nRoots root

def countOf (root : Nat) : Nat :=
  count (ranks.nRanks - ranks.offset) ranks.nRoots root

/-- A rank is in the part of a root. -/
def InPart (root r : Nat) : Prop :=
  firstOf ranks root ≤ r ∧ r < firstOf ranks root + countOf ranks root

instance (root r : Nat) : Decidable (InPart ranks root r) := instDecidableAnd

end

theorem InPart.rootId (inPart : InPart ranks root r) :
    rootIdFromRank r ranks.nRanks ranks.nRoots ranks.offset = root := by
  obtain ⟨within, positive, -⟩ := split ranks
  obtain ⟨low, high⟩ := inPart
  obtain ⟨l, rfl⟩ := Nat.exists_eq_add_of_le low
  exact rootIdFromRank_of_part within.le positive (Nat.lt_of_add_lt_add_left high)

theorem offset_le_first (ranks : StartedRanks Address Info) (root : Nat) : ranks.offset ≤ firstOf ranks root := by
  unfold firstOf first
  omega

theorem last_le (inside : root < ranks.nRoots) : firstOf ranks root + countOf ranks root ≤ ranks.nRanks := by
  obtain ⟨within, positive, enough⟩ := split ranks
  have mono : firstOf ranks (root + 1) ≤ firstOf ranks ranks.nRoots := first_mono (Nat.succ_le_of_lt inside)
  unfold firstOf at mono
  rw [first_succ, first_last positive] at mono
  unfold firstOf countOf
  omega

/-- One root has all ranks behind the offset. -/
theorem whole_of_one (one : ranks.nRoots = 1) : firstOf ranks 0 + countOf ranks 0 = ranks.nRanks := by
  have within := (split ranks).within
  unfold firstOf countOf
  rw [← first_succ, one, first_last (by omega)]
  omega

theorem nRankFromRoot_countOf (inside : root < ranks.nRoots) :
    nRankFromRoot root ranks.nRanks ranks.nRoots ranks.offset = countOf ranks root :=
  nRankFromRoot_eq (le_of_lt (split ranks).within) inside

theorem countOf_pos (ranks : StartedRanks Address Info) (root : Nat) : 0 < countOf ranks root :=
  count_pos (split ranks).positive (split ranks).enough

theorem exists_inPart (above : ranks.offset ≤ r) (bound : r < ranks.nRanks) :
    ∃ root < ranks.nRoots, InPart ranks root r := by
  obtain ⟨within, positive, enough⟩ := split ranks
  exact exists_part positive above (by omega)

theorem InPart.unique (inPart : InPart ranks root r) (inPart' : InPart ranks root' r) : root = root' :=
  Nat.cast_inj.mp (inPart.rootId.symm.trans inPart'.rootId)

section
variable (bound : r < ranks.nRanks)
include bound

theorem rootId_iff (above : ranks.offset ≤ r) :
    rootIdFromRank r ranks.nRanks ranks.nRoots ranks.offset = root ↔ InPart ranks root r := by
  refine ⟨fun is => ?_, InPart.rootId⟩
  obtain ⟨root', -, inPart⟩ := exists_inPart above bound
  have := inPart.rootId
  obtain rfl : root' = root := by omega
  exact inPart

/-- A rank tells its root, which is the one of its part. -/
theorem currRoot_iff : (ranks.rank r).currRoot = root ↔ InPart ranks root r := by
  by_cases above : ranks.offset ≤ r
  · rw [currRoot_above above, rootId_iff bound above]
  · rw [currRoot_below (by omega)]
    have := offset_le_first ranks root
    refine iff_of_false (by omega) fun ⟨low, _⟩ => ?_
    omega

section
variable (ranks : StartedRanks Address Info)

/-- Whether a root gets a message from the first rank behind its part. -/
def Several : Prop := 0 < ranks.offset ∨ 1 < ranks.nRoots

instance : Decidable (Several ranks) := instDecidableOr

/-- The first rank behind a part, if it tells the root of the part. -/
def Behind (root r : Nat) : Prop :=
  Several ranks ∧ r = (firstOf ranks root + countOf ranks root) % ranks.nRanks

instance (root r : Nat) : Decidable (Behind ranks root r) := instDecidableAnd

/-- The previous rank. -/
def prevOf (r : Nat) : Nat := if r = 0 then ranks.nRanks - 1 else r - 1

end

theorem prevOf_cases :
    (r = 0 ∧ prevOf ranks r + 1 = ranks.nRanks) ∨ (0 < r ∧ prevOf ranks r + 1 = r) := by
  unfold prevOf
  split <;> omega

theorem pid_prevOf : bootstrapPid (r - 1) ranks.nRanks = prevOf ranks r := by
  rw [pid_prev bound, prevOf]
  split <;> omega

/-- The first rank behind a part. -/
theorem behind_iff (inside : root < ranks.nRoots) :
    r = (firstOf ranks root + countOf ranks root) % ranks.nRanks ↔
      prevOf ranks r + 1 = firstOf ranks root + countOf ranks root := by
  have last := last_le inside
  have some_ := countOf_pos ranks root
  have prev := prevOf_cases bound
  rcases last.lt_or_eq with before | whole
  · rw [Nat.mod_eq_of_lt before]
    omega
  · rw [whole, Nat.mod_self]
    omega

theorem first_iff (kind : ranks.kind = .normal nHandles) (inside : root < ranks.nRoots) :
    (isFirstFromRoot r (ranks.rank r).currRoot ranks.nRanks ranks.nRoots ranks.offset ∧
      rootIdFromRank (prevOf ranks r) ranks.nRanks ranks.nRoots ranks.offset = root) ↔
    prevOf ranks r + 1 = firstOf ranks root + countOf ranks root := by
  obtain ⟨within, positive, enough⟩ := split ranks
  have zero : ranks.offset = 0 := by simp [offset, kind]
  have prev := prevOf_cases bound
  have prev_lt : prevOf ranks r < ranks.nRanks := by omega
  obtain ⟨own, own_lt, inPart⟩ := exists_inPart (zero ▸ Nat.zero_le r) bound
  rw [rootId_iff prev_lt (zero ▸ Nat.zero_le _), (currRoot_iff bound).mpr inPart, isFirstFromRoot,
    firstRankFromRoot_eq within.le, decide_eq_true_iff, Nat.cast_inj]
  have some_ := countOf_pos ranks root
  constructor
  · rintro ⟨isFirst, low, high⟩
    by_contra inner
    -- the next rank would be in the same part, and not the first one
    have last := last_le inside
    have next : r = prevOf ranks r + 1 := by omega
    have here : InPart ranks root r := ⟨by omega, by omega⟩
    have same := inPart.unique here
    rw [← same] at low
    unfold firstOf at low
    omega
  · intro isLast
    refine ⟨?_, by omega, by omega⟩
    by_cases first_ : r = 0
    · have : first ranks.offset (ranks.nRanks - ranks.offset) ranks.nRoots own ≤ r := inPart.1
      omega
    · have next : r = prevOf ranks r + 1 := by omega
      have start : r = firstOf ranks (root + 1) := by
        rw [next, isLast]
        exact first_succ.symm
      have here : InPart ranks (root + 1) r := ⟨by omega, by have := countOf_pos ranks (root + 1); omega⟩
      rw [inPart.unique here]
      exact start

end

/-- The root that a rank tells besides its own. -/
def prevRoot (ranks : StartedRanks Address Info) (r : Nat) : Int :=
  rootIdFromRank (prevOf ranks r) ranks.nRanks (ranks.rank r).nHandles ranks.offset

section
variable (bound : r < ranks.nRanks) (inside : root < ranks.nRoots)
include bound inside

/-- Who tells a root besides the ranks of its part. -/
theorem prevRoot_iff :
    ((((ranks.rank r).isGrow ∧ ∃ nRanks ∈ (ranks.rank r).parentRanks, 1 < nRanks) ∨ 1 < (ranks.rank r).nHandles) ∧
      isFirstFromRoot r (ranks.rank r).currRoot ranks.nRanks (ranks.rank r).nHandles ranks.offset ∧
      prevRoot ranks r = root) ↔ Several ranks ∧ prevOf ranks r + 1 = firstOf ranks root + countOf ranks root := by
  have prev := prevOf_cases bound
  cases kind : ranks.kind with
  | normal =>
    have handles : (ranks.rank r).nHandles = ranks.nRoots := by simp [StartedRanks.rank, nRoots, kind]
    have grow : (ranks.rank r).isGrow = false := by simp [StartedRanks.rank, kind]
    have zero : ranks.offset = 0 := by simp [offset, kind]
    rw [prevRoot, handles, grow, first_iff bound kind inside, Several, zero]
    simp
  | grow parentRanks =>
    have offset : ranks.offset = parentRanks - 1 := by simp [offset, kind]
    have one : ranks.nRoots = 1 := by simp [nRoots, kind]
    obtain rfl : root = 0 := by omega
    have whole := whole_of_one one
    have few : ¬ 1 < (ranks.rank r).nHandles := by
      simp only [StartedRanks.rank, kind]
      split <;> omega
    have parent : (∃ nRanks ∈ (ranks.rank r).parentRanks, 1 < nRanks) ↔ r < parentRanks ∧ 1 < parentRanks := by
      simp only [StartedRanks.rank, kind]
      by_cases existing : r < parentRanks <;> simp
    have grow : (ranks.rank r).isGrow = true := by simp [StartedRanks.rank, kind]
    rw [or_iff_left few, parent, Several, grow]
    clear parent
    constructor
    · rintro ⟨⟨-, existing, more⟩, isFirst, isRoot⟩
      refine ⟨.inl (by omega), ?_⟩
      by_cases below : r < ranks.offset
      · rw [isFirstFromRoot, currRoot_below below, firstRankFromRoot, decide_eq_true_iff] at isFirst
        omega
      · -- the last rank of the parent: its previous rank has no root
        have lower : (prevOf ranks r : Int) < ranks.offset := by omega
        rw [prevRoot, rootIdFromRank] at isRoot
        omega
    · rintro ⟨more, isLast⟩
      have isZero : r = 0 := by omega
      have more : 1 < parentRanks := by omega
      refine ⟨⟨rfl, by omega, more⟩, ?_, ?_⟩
      · rw [currRoot_below (by omega), isZero]
        rfl
      · have handles : (ranks.rank r).nHandles = ranks.nRoots := by
          simp [StartedRanks.rank, nRoots, isZero]
        have here : InPart ranks 0 (prevOf ranks r) := by
          have := countOf_pos ranks 0
          exact ⟨by omega, by omega⟩
        rw [prevRoot, handles, here.rootId]

theorem sendToPrevRoot_toRoot :
    (ranks.rank r).sendToPrevRoot.filterMap (·.toRoot root) =
      if Behind ranks root r then
        [{ (ranks.rank r).info with rank := (firstOf ranks root + countOf ranks root : Nat), iroot := root }]
      else [] := by
  have told := prevRoot_iff bound inside
  have fields : bootstrapPid ((ranks.rank r).rank - 1) (ranks.rank r).nRanks = prevOf ranks r := pid_prevOf bound
  have isPrev : rootIdFromRank (prevOf ranks r) (ranks.rank r).nRanks (ranks.rank r).nHandles (ranks.rank r).offset =
      prevRoot ranks r := by
    rw [rank_offset]
    rfl
  simp only [BootstrapRank.sendToPrevRoot, fields, isPrev, Behind, behind_iff bound inside]
  by_cases tells : Several ranks ∧ prevOf ranks r + 1 = firstOf ranks root + countOf ranks root
  · obtain ⟨some_, isFirst, isRoot⟩ := told.mpr tells
    rw [if_pos tells, if_pos ⟨some_, by rw [rank_offset]; exact isFirst, by omega⟩, isRoot, ← tells.2]
    simp [BootstrapCall.toRoot]
  · rw [if_neg tells]
    split
    next sends =>
      rw [rank_offset] at sends
      have other : prevRoot ranks r ≠ root := fun is => tells (told.mp ⟨sends.1, sends.2.1, is⟩)
      simp [BootstrapCall.toRoot, other]
    next => rfl

/-- What a rank sends to a root. -/
theorem messages_eq :
    ranks.messages r root =
      (if InPart ranks root r then [(ranks.rank r).info] else []) ++
      if Behind ranks root r then
        [{ (ranks.rank r).info with rank := (firstOf ranks root + countOf ranks root : Nat), iroot := root }]
      else [] := by
  rw [messages, ringCalls_toRoot, sendToPrevRoot_toRoot bound inside]
  simp [currRoot_iff bound]

end

/-- What a root has to do. -/
def dutyOf (inside : root < ranks.nRoots) : Duty Address Info where
  nranks := ranks.nRanks
  iroot := root
  nroots := ranks.nRoots
  offset := ranks.offset
  n2send := countOf ranks root
  nrecv := countOf ranks root + if Several ranks then 1 else 0
  address l := ranks.rootAddress (firstOf ranks root + l)
  info l := ranks.connectInfo ((firstOf ranks root + l) % ranks.nRanks)
  n2send_eq := nRankFromRoot_countOf inside
  nrecv_eq := by
    congr 1
    refine if_congr ?_ rfl rfl
    unfold Several
    omega
  positive := countOf_pos ranks root
  address_ne l := ranks.rootAddress_ne _
  info_ne l := ranks.connectInfo_ne _

section
variable (inside : root < ranks.nRoots)

theorem dutyOf_localId (is : rank = firstOf ranks root + l) :
    localIdFromRoot rank (dutyOf inside).iroot (dutyOf inside).nranks
      (dutyOf inside).nroots (dutyOf inside).offset = l := by
  have := localIdFromRoot_eq (le_of_lt (split ranks).within) inside (rank : Int)
  refine this.trans ?_
  rw [is]
  unfold firstOf
  omega

/-- The message of a rank to its own root, -/
theorem own_message (bound : r < ranks.nRanks) (inPart : InPart ranks root r) :
    (dutyOf inside).Message (r - firstOf ranks root) (ranks.rank r).info := by
  have above := le_trans (offset_le_first ranks root) inPart.1
  have isRoot := (currRoot_iff bound).mpr inPart
  have place := Nat.add_sub_cancel' inPart.1
  refine ⟨rfl, isRoot, ?_, rank_offset ranks r, dutyOf_localId inside place.symm, fun _ => ?_, ?_⟩
  · exact congrArg Nat.cast (rank_nHandles above)
  · simp only [BootstrapRank.info, isRoot, dutyOf, place]
    exact if_pos (Int.natCast_nonneg root)
  · simp only [dutyOf, place, Nat.mod_eq_of_lt bound]
    rfl

/-- and the one of the first rank behind the part. -/
theorem behind_message (isBehind : Behind ranks root r) :
    (dutyOf inside).Message (countOf ranks root)
      { (ranks.rank r).info with rank := (firstOf ranks root + countOf ranks root : Nat), iroot := root } := by
  refine ⟨rfl, rfl, ?_, rank_offset ranks r, dutyOf_localId inside rfl, fun less => absurd less (lt_irrefl _), ?_⟩
  · refine congrArg Nat.cast (?_ : (ranks.rank r).nHandles = ranks.nRoots)
    cases kind : ranks.kind with
    | normal => simp [StartedRanks.rank, nRoots, kind]
    | grow =>
      have one : ranks.nRoots = 1 := by simp [nRoots, kind]
      obtain rfl : root = 0 := by omega
      have zero := isBehind.2
      rw [whole_of_one one] at zero
      simp [StartedRanks.rank, nRoots, zero]
  · simp only [dutyOf, ← isBehind.2]
    rfl

end

/-- The local ids of the messages of a rank. -/
def idsOf (ranks : StartedRanks Address Info) (root r : Nat) : List Nat :=
  (if InPart ranks root r then [r - firstOf ranks root] else []) ++
    if Behind ranks root r then [countOf ranks root] else []

theorem localId_of_message {duty : Duty Address Info} {l : Nat} {message : ExtInfo Address Info}
    (is : duty.Message l message) : duty.localId message = l := by
  rw [Duty.localId, is.localId, Int.toNat_natCast]

theorem messages_ids (inside : root < ranks.nRoots) (bound : r < ranks.nRanks) :
    (ranks.messages r root).map (dutyOf inside).localId = idsOf ranks root r := by
  rw [messages_eq bound inside, map_append]
  congr 1
  · split
    next inPart => rw [map_singleton, localId_of_message (own_message inside bound inPart)]
    next => rfl
  · split
    next isBehind => rw [map_singleton, localId_of_message (behind_message inside isBehind)]
    next => rfl

theorem messages_good (inside : root < ranks.nRoots) (member : message ∈ ranks.messagesTo root) :
    (dutyOf inside).Message ((dutyOf inside).localId message) message := by
  obtain ⟨r, inRange, sends⟩ := mem_flatMap.mp member
  have bound := mem_range.mp inRange
  rw [messages_eq bound inside, mem_append] at sends
  rcases sends with own | behind
  · split at own
    next inPart =>
      have is := own_message inside bound inPart
      rw [mem_singleton.mp own, localId_of_message is]
      exact is
    next => cases own
  · split at behind
    next isBehind =>
      have is := behind_message inside isBehind
      rw [mem_singleton.mp behind, localId_of_message is]
      exact is
    next => cases behind

theorem mem_idsOf : l ∈ idsOf ranks root r ↔ (InPart ranks root r ∧ l = r - firstOf ranks root) ∨
    (Behind ranks root r ∧ l = countOf ranks root) := by
  unfold idsOf
  rw [mem_append]
  refine or_congr ?_ ?_
  · by_cases inPart : InPart ranks root r <;> simp
  · by_cases isBehind : Behind ranks root r <;> simp

/-- The messages to a root have the local ids that it waits for, each once. -/
theorem messagesTo_ids (inside : root < ranks.nRoots) :
    ((ranks.messagesTo root).map (dutyOf inside).localId).Perm
      (range (dutyOf inside).nrecv) := by
  have ids : (ranks.messagesTo root).map (dutyOf inside).localId =
      (range ranks.nRanks).flatMap (idsOf ranks root) := by
    rw [messagesTo, map_flatMap]
    exact flatMap_congr fun r inRange => messages_ids inside (mem_range.mp inRange)
  have last := last_le inside
  have some_ := countOf_pos ranks root
  rw [ids, perm_ext_iff_of_nodup _ nodup_range]
  · intro l
    rw [mem_flatMap]
    simp only [mem_idsOf, dutyOf, mem_range]
    constructor
    · rintro ⟨r, -, ⟨⟨low, high⟩, rfl⟩ | ⟨⟨several, -⟩, rfl⟩⟩
      · omega
      · rw [if_pos several]
        omega
    · intro less
      by_cases own : l < countOf ranks root
      · exact ⟨firstOf ranks root + l, by omega, .inl ⟨⟨by omega, by omega⟩, by omega⟩⟩
      · have several : Several ranks := by
          by_contra single
          rw [if_neg single] at less
          omega
        rw [if_pos several] at less
        exact ⟨_, Nat.mod_lt _ (by omega), .inr ⟨⟨several, rfl⟩, by omega⟩⟩
  · rw [nodup_flatMap]
    refine ⟨fun r _ => ?_, nodup_range.imp_of_mem ?_⟩
    · unfold idsOf
      split
      next inPart =>
        have := inPart.2
        split
        · simp
          omega
        · simp
      next => split <;> simp
    · intro r r' _ _ other l here there
      rcases mem_idsOf.mp here with ⟨inPart, is⟩ | ⟨isBehind, is⟩ <;>
        rcases mem_idsOf.mp there with ⟨inPart', is'⟩ | ⟨isBehind', is'⟩
      · have := inPart.1
        have := inPart'.1
        omega
      · have := inPart.1
        have := inPart.2
        omega
      · have := inPart'.1
        have := inPart'.2
        omega
      · exact other (isBehind.2.trans isBehind'.2.symm)

theorem currRoot_nonneg_iff (bound : r < ranks.nRanks) : 0 ≤ (ranks.rank r).currRoot ↔ ranks.offset ≤ r := by
  by_cases above : ranks.offset ≤ r
  · obtain ⟨root, -, inPart⟩ := exists_inPart above bound
    rw [(currRoot_iff bound).mpr inPart]
    exact iff_of_true (Int.natCast_nonneg _) above
  · rw [currRoot_below (by omega)]
    exact iff_of_false (by decide) above

/-- A rank of the parent, but for the last one, is told by the parent's next rank. -/
theorem recvFromNextPeer_eq (ranks : StartedRanks Address Info) (r : Nat) :
    (ranks.rank r).recvFromNextPeer = if r < ranks.offset then [.bootstrapRecv (r + 1)] else [] := by
  refine if_congr ?_ rfl rfl
  cases kind : ranks.kind with
  | normal => simp [StartedRanks.rank, offset, kind]
  | grow parentRanks =>
    by_cases existing : r < parentRanks
    · simp only [StartedRanks.rank, offset, kind, existing, if_true, Option.mem_some_iff, exists_eq_left', true_and]
      omega
    · simp only [StartedRanks.rank, offset, kind, existing, if_false]
      refine iff_of_false ?_ (by omega)
      rintro ⟨-, _, none, -⟩
      cases none

theorem receives_eq (bound : r < ranks.nRanks) :
    ranks.receives r = if r < ranks.offset then [.bootstrapRecv (r + 1)] else [.socketRecv] := by
  rw [receives, ringCalls_recv, recvFromNextPeer_eq]
  simp only [currRoot_nonneg_iff bound]
  by_cases above : ranks.offset ≤ r
  · simp [Nat.not_lt.mpr above]
  · simp [not_le.mp above]

theorem sendToPrevPeer_eq (below : r < ranks.offset) :
    (ranks.rank (r + 1)).sendToPrevPeer = [.bootstrapSend r (ranks.connectInfo (r + 1))] := by
  have valid := ranks.valid
  cases kind : ranks.kind with
  | normal => simp [offset, kind] at below
  | grow parentRanks =>
    simp only [offset, kind] at below valid
    have existing : r + 1 < parentRanks := by omega
    simp [BootstrapRank.sendToPrevPeer, StartedRanks.rank, kind, existing]

theorem next_place (inside : root < ranks.nRoots) (is : r = firstOf ranks root + l) (own : l < countOf ranks root) :
    (firstOf ranks root + (dutyOf inside).next l) % ranks.nRanks = (r + 1) % ranks.nRanks := by
  have next := (dutyOf inside).next_cases (l := l) (own.trans_le (dutyOf inside).n2send_le)
  rw [next]
  split
  next last =>
    -- the last rank of the only root
    have single : ¬ Several ranks := by
      intro several
      simp only [dutyOf, if_pos several] at last
      omega
    simp only [dutyOf, if_neg single] at last
    unfold Several at single
    have one : ranks.nRoots = 1 := by omega
    have zero : ranks.offset = 0 := by omega
    obtain rfl : root = 0 := by omega
    have start : firstOf ranks 0 = 0 := by simp [firstOf, first, zero]
    rw [add_zero, is, add_assoc, last, add_zero, whole_of_one one, start, Nat.zero_mod, Nat.mod_self]
  next => rw [is, add_assoc]

section
variable (ranks : StartedRanks Address Info)

/-- The functions that split the ranks agree. -/
structure SplitAgrees : Prop where
  rootless : ∀ r : Nat, r < ranks.offset → rootIdFromRank r ranks.nRanks ranks.nRoots ranks.offset = -1
  rooted : ∀ r : Nat, ranks.offset ≤ r → r < ranks.nRanks →
    ∃ root : Nat, root < ranks.nRoots ∧ rootIdFromRank r ranks.nRanks ranks.nRoots ranks.offset = root
  part : ∀ root r : Nat, root < ranks.nRoots → ranks.offset ≤ r → r < ranks.nRanks →
    (rootIdFromRank r ranks.nRanks ranks.nRoots ranks.offset = root ↔
      0 ≤ localIdFromRoot r root ranks.nRanks ranks.nRoots ranks.offset ∧
        localIdFromRoot r root ranks.nRanks ranks.nRoots ranks.offset <
          nRankFromRoot root ranks.nRanks ranks.nRoots ranks.offset)
  localId : ∀ root r : Nat, root < ranks.nRoots →
    localIdFromRoot r root ranks.nRanks ranks.nRoots ranks.offset =
      r - firstRankFromRoot root ranks.nRanks ranks.nRoots ranks.offset

theorem split_agrees : SplitAgrees ranks := by
  have within := le_of_lt (split ranks).within
  have localId : ∀ root r : Nat, root < ranks.nRoots →
      localIdFromRoot r root ranks.nRanks ranks.nRoots ranks.offset = r - firstOf ranks root :=
    fun root r inside => localIdFromRoot_eq within inside r
  refine ⟨fun r below => ?_, fun r above bound => ?_, fun root r inside above bound => ?_, fun root r inside => ?_⟩
  · exact if_pos (.inr (by omega))
  · obtain ⟨root, inside, inPart⟩ := exists_inPart above bound
    exact ⟨root, inside, inPart.rootId⟩
  · rw [rootId_iff bound above, localId root r inside, nRankFromRoot_countOf inside]
    unfold InPart
    omega
  · rw [localId root r inside, firstRankFromRoot_eq within]
    rfl

/-- The messages that a root waits for. -/
def waitsFor (root : Nat) : Int :=
  nRankFromRoot root ranks.nRanks ranks.nRoots ranks.offset + if 0 < ranks.offset ∨ 1 < ranks.nRoots then 1 else 0

end

theorem waitsFor_eq (inside : root < ranks.nRoots) : waitsFor ranks root = (dutyOf inside).nrecv := by
  rw [waitsFor, nRankFromRoot_countOf inside]
  simp only [dutyOf]
  push_cast
  rfl

theorem arrivals_ids {root : Nat} (inside : root < ranks.nRoots) {arrivals : List (ExtInfo Address Info)}
    (order : arrivals.Perm (ranks.messagesTo root)) :
    (arrivals.map fun message => localIdFromRoot message.rank root ranks.nRanks ranks.nRoots ranks.offset).Perm
      ((range (waitsFor ranks root).toNat).map fun (l : Nat) => (l : Int)) := by
  have same : arrivals.map (fun message => localIdFromRoot message.rank root ranks.nRanks ranks.nRoots ranks.offset) =
      (arrivals.map (dutyOf inside).localId).map fun (l : Nat) => (l : Int) := by
    rw [map_map]
    refine map_congr_left fun message member => ?_
    exact (messages_good inside (order.mem_iff.mp member)).localId
  rw [same, waitsFor_eq inside]
  exact ((order.map _).trans (messagesTo_ids inside)).map _

end

section
variable [DecidableEq Address] [DecidableEq Info] [Zero Address] [Zero Info] {ranks : StartedRanks Address Info}

theorem throughParent_eq (bound : r < ranks.nRanks) :
    ranks.throughParent r = if r < ranks.offset then [ranks.connectInfo ((r + 1) % ranks.nRanks)] else [] := by
  have within := (split ranks).within
  unfold throughParent
  simp only [receives_eq bound]
  split
  next below =>
    rw [flatMap_range_eq (i := r + 1) (by omega)]
    · rw [ringCalls_toPeer, sendToPrevPeer_eq below, Nat.mod_eq_of_lt (by omega)]
      simp [BootstrapCall.toPeer]
    · intro peer _ other
      refine if_neg fun member => other ?_
      simp only [mem_singleton, BootstrapCall.bootstrapRecv.injEq] at member
      omega
  next => simp

omit [DecidableEq Info] in
theorem fromRoots_eq (bound : r < ranks.nRanks)
    (answers : ∀ root (inside : root < ranks.nRoots), (sent root).Perm ((range (countOf ranks root)).map fun l =>
      ((dutyOf inside).address l, (dutyOf inside).info ((dutyOf inside).next l)))) :
    ranks.fromRoots sent r = if ranks.offset ≤ r then [ranks.connectInfo ((r + 1) % ranks.nRanks)] else [] := by
  have from_ : ∀ root (inside : root < ranks.nRoots), (sent root).filterMap
      (fun answer => if answer.1 = ranks.rootAddress r then some answer.2 else none) =
        if InPart ranks root r then [ranks.connectInfo ((r + 1) % ranks.nRanks)] else [] := by
    intro root inside
    have perm := (answers root inside).filterMap
      fun answer => if answer.1 = ranks.rootAddress r then some answer.2 else none
    rw [filterMap_map, filterMap_eq_flatMap_toList _ (range _)] at perm
    have address : ∀ l, (dutyOf inside).address l = ranks.rootAddress r ↔ firstOf ranks root + l = r :=
      fun l => ranks.rootAddress_inj.eq_iff
    simp only [Function.comp_def, address] at perm
    by_cases inPart : InPart ranks root r
    · obtain ⟨low, high⟩ := inPart
      have place := Nat.add_sub_cancel' low
      rw [flatMap_range_eq (i := r - firstOf ranks root) (by omega)
        fun l _ other => by rw [if_neg (by omega)]; rfl] at perm
      rw [if_pos place] at perm
      rw [if_pos ⟨low, high⟩, perm_singleton.mp perm]
      refine congrArg (fun place => [ranks.connectInfo place]) ?_
      exact next_place inside place.symm (by omega)
    · rw [if_neg inPart]
      refine perm_nil.mp (perm.trans (List.Perm.of_eq ?_))
      refine flatMap_eq_nil_iff.mpr fun l member => ?_
      have := mem_range.mp member
      rw [if_neg fun is => inPart ⟨by omega, by omega⟩]
      rfl
  unfold fromRoots
  split
  next above =>
    obtain ⟨root, inside, inPart⟩ := exists_inPart above bound
    rw [flatMap_range_eq inside, from_ root inside, if_pos inPart]
    intro other inside' differ
    rw [from_ other inside']
    exact if_neg fun inPart' => differ (inPart'.unique inPart)
  next below =>
    refine flatMap_eq_nil_iff.mpr fun root member => ?_
    rw [from_ root (mem_range.mp member)]
    refine if_neg fun inPart => below ?_
    exact le_trans (offset_le_first ranks root) inPart.1

/-- In a normal start with any number of roots, and in one that grows a parent, the ranks are
split among the roots; whatever the order of the messages, each root gets those that it waits
for, with distinct local ids, and comes to its end; and each rank gets the information about
the next rank once, from where it asks for it. -/
theorem roots_close_ring (ranks : StartedRanks Address Info) (arrivals : Nat → List (ExtInfo Address Info))
    (orders : ∀ root < ranks.nRoots, (arrivals root).Perm (ranks.messagesTo root)) :
    SplitAgrees ranks ∧
    (∀ root < ranks.nRoots, (arrivals root).length = waitsFor ranks root ∧
      ((arrivals root).map fun message =>
          localIdFromRoot message.rank root ranks.nRanks ranks.nRoots ranks.offset).Perm
        ((range (waitsFor ranks root).toNat).map fun (l : Nat) => (l : Int))) ∧
    ∃ sent : Nat → List (Address × Info),
      (∀ root < ranks.nRoots, RootState.start.bootstrapRoot (arrivals root) = .ends (sent root) []) ∧
      ∀ r < ranks.nRanks,
        (ranks.receives r = [.socketRecv] ∧ ranks.throughParent r = [] ∧
          ranks.fromRoots sent r = [ranks.connectInfo ((r + 1) % ranks.nRanks)]) ∨
        (ranks.receives r = [.bootstrapRecv (r + 1)] ∧ ranks.fromRoots sent r = [] ∧
          ranks.throughParent r = [ranks.connectInfo ((r + 1) % ranks.nRanks)]) := by
  refine ⟨split_agrees ranks, fun root inside => ?_, ?_⟩
  · have ids := arrivals_ids inside (orders root inside)
    refine ⟨?_, ids⟩
    have length := ids.length_eq
    rw [length_map, length_map, length_range] at length
    rw [length, waitsFor_eq inside, Int.toNat_natCast]
  have ended : ∀ root, ∃ sent, ∀ inside : root < ranks.nRoots,
      RootState.start.bootstrapRoot (arrivals root) = .ends sent [] ∧
        sent.Perm ((range (countOf ranks root)).map fun l => ((dutyOf inside).address l,
          (dutyOf inside).info ((dutyOf inside).next l))) := by
    intro root
    by_cases inside : root < ranks.nRoots
    · obtain ⟨sent, ends, answers⟩ := (dutyOf inside).ends
        (fun message member => messages_good inside ((orders root inside).mem_iff.mp member))
        (((orders root inside).map _).trans (messagesTo_ids inside))
      exact ⟨sent, fun _ => ⟨ends, answers⟩⟩
    · exact ⟨[], fun within => absurd within inside⟩
  choose sent spec using ended
  refine ⟨sent, fun root inside => (spec root inside).1, fun r bound => ?_⟩
  rw [receives_eq bound, throughParent_eq bound, fromRoots_eq bound fun root inside => (spec root inside).2]
  by_cases below : r < ranks.offset
  · exact .inr (by simp [Nat.not_le.mpr below])
  · exact .inl (by simp [Nat.not_lt.mp below])

end

/-- Three ranks with two roots, -/
def threeRanks : StartedRanks Nat Nat where
  nRanks := 3
  kind := .normal 2
  netEnable := false
  rasEnable := false
  rootAddress := Nat.succ
  connectInfo := Nat.succ
  valid := by decide
  rootAddress_ne := Nat.succ_ne_zero
  rootAddress_inj := Nat.succ_injective
  connectInfo_ne := Nat.succ_ne_zero

/-- whose messages arrive in the reverse order. -/
theorem threeRanks_close_ring :
    ∃ sent : Nat → List (Nat × Nat),
      (∀ root < 2, RootState.start.bootstrapRoot (threeRanks.messagesTo root).reverse = .ends (sent root) []) ∧
        threeRanks.fromRoots sent 0 ++ threeRanks.throughParent 0 = [2] := by
  obtain ⟨-, -, sent, ends, learns⟩ :=
    roots_close_ring threeRanks (fun root => (threeRanks.messagesTo root).reverse) fun _ _ => reverse_perm _
  refine ⟨sent, ends, ?_⟩
  rcases learns 0 (by decide) with ⟨-, parent, roots⟩ | ⟨-, roots, parent⟩ <;> rw [parent, roots] <;> rfl

end NcclCore.BootstrapRanksProofs
