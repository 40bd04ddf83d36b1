import Mathlib.Data.List.Nodup
import Mathlib.Data.List.Perm.Basic
import NcclCore.DevrWindows
import NcclCore.Lib.Runs

/-! The registry of windows over all runs: what it keeps is what is registered, and a
pointer is found unless a window behind hides it. -/
namespace NcclCore.DevrWindowsProofs
open Function List DevrRegistry

namespace Search
variable {key : Nat → Nat} {arg count : Nat}

/-- The places below `lo` and from `hi` on are decided. -/
structure Bounds (key : Nat → Nat) (arg count lo hi : Nat) : Prop where
  le : lo ≤ hi
  within : hi ≤ count
  below : ∀ j < lo, key j ≤ arg
  above : ∀ j, hi ≤ j → j < count → arg < key j

theorem lubBinary (sorted : ∀ i j, i ≤ j → j < count → key i ≤ key j) (enough : hi - lo ≤ fuel)
    (bounds : Bounds key arg count lo hi) : let range := DevrList.lubBinary key arg fuel lo hi
    Bounds key arg count range.1 range.2 ∧ ¬ range.1 + 16 < range.2 := by
  induction fuel generalizing lo hi with
  | zero => exact ⟨bounds, by simp only [DevrList.lubBinary]; omega⟩
  | succ fuel ih =>
    obtain ⟨le, within, below, above⟩ := bounds
    simp only [DevrList.lubBinary]
    split
    next wide =>
      split
      next reached =>
        refine ih (by omega) ⟨by omega, within, fun j before => ?_, above⟩
        exact le_trans (sorted j _ (by omega) (by omega)) reached
      next beyond =>
        refine ih (by omega) ⟨by omega, by omega, below, fun j from_ inside => ?_⟩
        exact lt_of_lt_of_le (not_le.mp beyond) (sorted _ j from_ inside)
    next narrow => exact ⟨⟨le, within, below, above⟩, narrow⟩

theorem lubLinear (sorted : ∀ i j, i ≤ j → j < count → key i ≤ key j) (enough : hi - i ≤ fuel)
    (bounds : Bounds key arg count i hi) :
    Bounds key arg count (DevrList.lubLinear key arg fuel i hi) (DevrList.lubLinear key arg fuel i hi) := by
  induction fuel generalizing i with
  | zero =>
    obtain ⟨le, within, below, above⟩ := bounds
    have here : hi = i := by omega
    exact ⟨le_rfl, here ▸ within, below, here ▸ above⟩
  | succ fuel ih =>
    obtain ⟨le, within, below, above⟩ := bounds
    rw [DevrList.lubLinear]
    split
    next more =>
      refine ih (by omega) ⟨by omega, within, fun j before => ?_, above⟩
      rcases Nat.lt_succ_iff_lt_or_eq.mp before with earlier | rfl
      · exact below j earlier
      · exact more.2
    next stop =>
      refine ⟨le_rfl, by omega, below, fun j from_ inside => ?_⟩
      rcases lt_or_ge i hi with more | ends
      · have beyond := Nat.lt_of_not_le fun reached => stop ⟨more, reached⟩
        exact beyond.trans_le (sorted i j from_ inside)
      · exact above j (ends.trans from_) inside

end Search

section
variable (list : DevrList Obj)

theorem getElem?_toList (i : Nat) : list.toList[i]? = if i < list.count then some (list.elems i) else none := by
  by_cases inside : i < list.count <;> simp [DevrList.toList, inside]

theorem getElem?_toList_of_lt (inside : i < list.count) : list.toList[i]? = some (list.elems i) := by
  rw [getElem?_toList, if_pos inside]

theorem getElem?_toList_of_ge (outside : list.count ≤ i) : list.toList[i]? = none := by
  rw [getElem?_toList, if_neg (Nat.not_lt.mpr outside)]

theorem mem_toList : entry ∈ list.toList ↔ ∃ i < list.count, list.elems i = entry := by
  simp [DevrList.toList]

theorem pairwise_toList :
    list.toList.Pairwise R ↔ ∀ i j, i < j → j < list.count → R (list.elems i) (list.elems j) := by
  rw [DevrList.toList, pairwise_map]
  constructor
  · intro ordered i j before inside
    have := pairwise_iff_getElem.mp ordered i j (by simp; omega) (by simpa using inside) before
    simpa using this
  · intro ordered
    refine pairwise_iff_getElem.mpr fun i j _ inside before => ?_
    rw [getElem_range, getElem_range]
    exact ordered i j before (by simpa using inside)

theorem key_mono {list : DevrList Obj} {key : Obj → Nat} (sorted : list.toList.Pairwise fun a b => key a ≤ key b) :
    ∀ i j, i ≤ j → j < list.count → key (list.elems i) ≤ key (list.elems j) := by
  intro i j le inside
  rcases le.lt_or_eq with before | rfl
  · exact (pairwise_toList list).mp sorted i j before inside
  · exact le_rfl

/-- The place found splits a sorted array. -/
theorem exists_lub (key : Obj → Nat) (arg : Nat) (sorted : list.toList.Pairwise fun a b => key a ≤ key b) :
    ∃ i, list.listFindSortedLub key arg = i ∧ Search.Bounds (fun i => key (list.elems i)) arg list.count i i := by
  have mono := key_mono sorted
  have start : Search.Bounds (fun i => key (list.elems i)) arg list.count 0 list.count :=
    ⟨Nat.zero_le _, le_rfl, by omega, by omega⟩
  obtain ⟨range, -⟩ := Search.lubBinary mono (Nat.sub_le _ _) start
  refine ⟨_, rfl, Search.lubLinear mono ?_ range⟩
  have := range.within
  omega

theorem shiftUp_apply (le : index ≤ j) (elems : Nat → Obj) (k : Nat) :
    DevrList.shiftUp index j elems k = if index < k ∧ k ≤ j then elems (k - 1) else elems k := by
  induction j generalizing elems with
  | zero =>
    rw [DevrList.shiftUp, if_neg (by omega)]
  | succ j ih =>
    rw [DevrList.shiftUp]
    by_cases stop : j + 1 = index
    · rw [if_pos stop, if_neg (by omega)]
    · rw [if_neg stop, ih (by omega)]
      by_cases top : k = j + 1
      · subst top
        rw [if_neg (by omega), if_pos (by omega), update_self, Nat.add_sub_cancel]
      · rw [update_of_ne top]
        by_cases moved : index < k ∧ k ≤ j
        · rw [if_pos moved, if_pos (by omega), update_of_ne (by omega)]
        · rw [if_neg moved, if_neg (by omega)]

theorem shiftDown_apply (steps i : Nat) (elems : Nat → Obj) (k : Nat) :
    DevrList.shiftDown steps i elems k = if i ≤ k ∧ k < i + steps then elems (k + 1) else elems k := by
  induction steps generalizing i elems with
  | zero => rw [DevrList.shiftDown, if_neg (by omega)]
  | succ steps ih =>
    rw [DevrList.shiftDown, ih]
    by_cases first : k = i
    · subst first
      rw [if_neg (by omega), if_pos (by omega), update_self]
    · by_cases moved : i + 1 ≤ k ∧ k < i + 1 + steps
      · rw [if_pos moved, if_pos (by omega), update_of_ne (by omega)]
      · rw [if_neg moved, if_neg (by omega), update_of_ne first]

theorem toList_listInsert (le : index ≤ list.count) (val : Obj) :
    (list.listInsert index val).toList = list.toList.take index ++ val :: list.toList.drop index := by
  have length : (list.toList.take index).length = index := by simp [DevrList.toList, le]
  have counted : (list.listInsert index val).count = list.count + 1 := rfl
  have moved : ∀ k, (list.listInsert index val).elems k =
      if k = index then val else if index < k ∧ k ≤ list.count then list.elems (k - 1) else list.elems k := by
    intro k
    simp [DevrList.listInsert, update_apply, shiftUp_apply le]
  refine ext_getElem? fun k => ?_
  rw [getElem?_append, length]
  rcases Nat.lt_trichotomy k index with before | rfl | behind
  · rw [getElem?_toList_of_lt _ (by omega), moved, if_neg (by omega), if_neg (by omega), if_pos before,
      getElem?_take_of_lt before, getElem?_toList_of_lt _ (by omega)]
  · rw [getElem?_toList_of_lt _ (by omega), moved, if_pos rfl, if_neg (lt_irrefl _), Nat.sub_self, getElem?_cons_zero]
  · obtain ⟨d, rfl⟩ : ∃ d, k = index + (d + 1) := ⟨k - index - 1, by omega⟩
    rw [if_neg (by omega), Nat.add_sub_cancel_left, getElem?_cons_succ, getElem?_drop]
    by_cases inside : index + d < list.count
    · rw [getElem?_toList_of_lt _ (by omega), moved, if_neg (by omega), if_pos (by omega),
        getElem?_toList_of_lt _ inside]
      rfl
    · rw [getElem?_toList_of_ge _ (by omega), getElem?_toList_of_ge _ (by omega)]

theorem toList_listRemove (inside : index < list.count) :
    (list.listRemove index).toList = list.toList.eraseIdx index := by
  have counted : (list.listRemove index).count = list.count - 1 := rfl
  have moved : ∀ k, (list.listRemove index).elems k =
      if index ≤ k ∧ k < index + (list.count - 1 - index) then list.elems (k + 1) else list.elems k :=
    shiftDown_apply _ _ _
  refine ext_getElem? fun k => ?_
  rw [getElem?_eraseIdx]
  by_cases before : k < index
  · rw [getElem?_toList_of_lt _ (by omega), moved, if_neg (by omega), if_pos before,
      getElem?_toList_of_lt _ (by omega)]
  · rw [if_neg before]
    by_cases more : k + 1 < list.count
    · rw [getElem?_toList_of_lt _ (by omega), moved, if_pos (by omega), getElem?_toList_of_lt _ more]
    · rw [getElem?_toList_of_ge _ (by omega), getElem?_toList_of_ge _ (by omega)]

end

section
variable {memories : List DevrMemory}

/-- The references of the memory object at an address. -/
def refsOf (memory : Nat) : List DevrMemory → Nat
  | [] => 0
  | mem :: rest => if mem.address = memory then mem.refCount else refsOf memory rest

/-- The memory objects have their own addresses and are in use. -/
structure Listed (memories : List DevrMemory) : Prop where
  distinct : (memories.map (·.address)).Nodup
  used : ∀ mem ∈ memories, 0 < mem.refCount

theorem refsOf_eq_zero (absent : ∀ mem ∈ memories, mem.address ≠ memory) : refsOf memory memories = 0 := by
  induction memories with
  | nil => rfl
  | cons mem rest ih =>
    rw [refsOf, if_neg (absent mem (.head _))]
    exact ih fun mem member => absent mem (.tail _ member)

theorem Listed.tail (listed : Listed (mem :: memories)) : Listed memories :=
  ⟨listed.distinct.of_cons, fun other member => listed.used other (.tail _ member)⟩

theorem Listed.head_absent (listed : Listed (mem :: memories)) : ∀ other ∈ memories, other.address ≠ mem.address := by
  intro other member same
  have absent := (nodup_cons.mp listed.distinct).1
  exact absent (mem_map.mpr ⟨other, member, same⟩)

theorem Listed.refsOf_of_mem (listed : Listed memories) (member : mem ∈ memories) :
    refsOf mem.address memories = mem.refCount := by
  induction memories with
  | nil => cases member
  | cons first rest ih =>
    rw [refsOf]
    rcases mem_cons.mp member with rfl | later
    · rw [if_pos rfl]
    · rw [if_neg (listed.head_absent mem later).symm, ih listed.tail later]

theorem Listed.refsOf_pos_iff (listed : Listed memories) (memory : Nat) :
    0 < refsOf memory memories ↔ ∃ mem ∈ memories, mem.address = memory := by
  constructor
  · intro positive
    by_contra absent
    rw [refsOf_eq_zero fun mem member same => absent ⟨mem, member, same⟩] at positive
    exact positive.false
  · rintro ⟨mem, member, rfl⟩
    rw [listed.refsOf_of_mem member]
    exact listed.used mem member

/-- `symMemoryObtain` on a memory object that is there. -/
theorem refsOf_shared (memory k : Nat) (memories : List DevrMemory) :
    refsOf k (memories.map fun mem =>
      if mem.address = memory then { mem with refCount := mem.refCount + 1 } else mem) =
      refsOf k memories + if k = memory ∧ ∃ mem ∈ memories, mem.address = memory then 1 else 0 := by
  induction memories with
  | nil => simp
  | cons mem rest ih =>
    rw [map_cons, refsOf, refsOf]
    by_cases here : mem.address = k
    · by_cases same : k = memory <;> simp [here, same]
    · have kept : (if mem.address = memory then { mem with refCount := mem.refCount + 1 } else mem).address =
          mem.address := by split <;> rfl
      rw [kept, if_neg here, if_neg here, ih]
      refine congrArg _ (if_congr (and_congr_right fun same => ?_) rfl rfl)
      simp [← same, here]

theorem Listed.cons (listed : Listed memories) (used : 0 < mem.refCount)
    (fresh : ∀ other ∈ memories, other.address ≠ mem.address) : Listed (mem :: memories) := by
  refine ⟨nodup_cons.mpr ⟨fun member => ?_, listed.distinct⟩, forall_mem_cons.mpr ⟨used, listed.used⟩⟩
  obtain ⟨other, member, same⟩ := mem_map.mp member
  exact fresh other member same

theorem Listed.symMemoryObtain (registry : DevrRegistry) (memory bigOffset : Nat) (listed : Listed registry.memories) :
    Listed (registry.symMemoryObtain memory bigOffset).memories := by
  rw [DevrRegistry.symMemoryObtain]
  split
  next present =>
    refine ⟨?_, fun mem member => ?_⟩
    · rw [map_map]
      refine (congrArg List.Nodup (map_congr_left fun mem _ => ?_)).mpr listed.distinct
      simp only [comp_apply]
      split <;> rfl
    · obtain ⟨old, old_mem, rfl⟩ := mem_map.mp member
      split
      · exact Nat.succ_pos _
      · exact listed.used old old_mem
  next absent =>
    have fresh : ∀ mem ∈ registry.memories, mem.address ≠ memory := by simpa using absent
    exact listed.cons one_pos fresh

theorem refsOf_symMemoryObtain (registry : DevrRegistry) (memory bigOffset k : Nat) :
    refsOf k (registry.symMemoryObtain memory bigOffset).memories =
      refsOf k registry.memories + if k = memory then 1 else 0 := by
  rw [symMemoryObtain]
  split
  next present =>
    have present : ∃ mem ∈ registry.memories, mem.address = memory := by simpa using present
    simp [refsOf_shared, present]
  next absent =>
    have fresh : ∀ mem ∈ registry.memories, mem.address ≠ memory := by simpa using absent
    rw [refsOf]
    by_cases here : memory = k
    · subst here
      simp [refsOf_eq_zero fresh]
    · simp [here, Ne.symm here]

theorem dropRef_address_mem (member : mem ∈ dropRef memory memories) :
    ∃ old ∈ memories, old.address = mem.address := by
  induction memories with
  | nil => cases member
  | cons first rest ih =>
    rw [dropRef] at member
    split at member
    · split at member
      · exact ⟨mem, .tail _ member, rfl⟩
      · rcases mem_cons.mp member with rfl | later
        · exact ⟨first, .head _, rfl⟩
        · exact ⟨mem, .tail _ later, rfl⟩
    · rcases mem_cons.mp member with rfl | later
      · exact ⟨mem, .head _, rfl⟩
      · obtain ⟨old, old_mem, same⟩ := ih later
        exact ⟨old, .tail _ old_mem, same⟩

theorem Listed.dropRef (listed : Listed memories) (memory : Nat) : Listed (dropRef memory memories) := by
  induction memories with
  | nil => exact listed
  | cons first rest ih =>
    rw [DevrRegistry.dropRef]
    split
    · split
      · exact listed.tail
      next more => exact listed.tail.cons (Nat.pos_of_ne_zero more) listed.head_absent
    · refine (ih listed.tail).cons (listed.used first (.head _)) fun other member same => ?_
      obtain ⟨old, old_mem, is⟩ := dropRef_address_mem member
      exact listed.head_absent old old_mem (is.trans same)

theorem Listed.refsOf_dropRef (listed : Listed memories) (memory k : Nat) :
    refsOf k (DevrRegistry.dropRef memory memories) = refsOf k memories - if k = memory then 1 else 0 := by
  induction memories with
  | nil => simp [DevrRegistry.dropRef, refsOf]
  | cons first rest ih =>
    rw [DevrRegistry.dropRef, refsOf]
    by_cases here : first.address = memory
    · subst here
      by_cases wanted : first.address = k
      · subst wanted
        rw [if_pos rfl, if_pos rfl, if_pos rfl]
        split
        next last => rw [refsOf_eq_zero listed.head_absent, last]
        next more => rw [refsOf, if_pos rfl]
      · rw [if_pos rfl, if_neg (Ne.symm wanted), Nat.sub_zero]
        split
        · rfl
        · rw [refsOf, if_neg wanted]
    · rw [if_neg here, refsOf, ih listed.tail]
      by_cases wanted : first.address = k
      · rw [if_pos wanted, if_pos wanted, if_neg fun same => here (wanted.trans same), Nat.sub_zero]
      · rw [if_neg wanted, if_neg wanted]

end

/-- The windows on a memory object, counted in the array. -/
def windowsOn (registry : DevrRegistry) (memory : Nat) : Nat :=
  registry.winSorted.toList.countP fun entry => (registry.windows entry.win).any (·.memory = memory)

/-- What the registry keeps in every state. -/
structure Consistent (registry : DevrRegistry) : Prop where
  sorted : registry.winSorted.toList.Pairwise fun a b => a.userAddr ≤ b.userAddr
  distinct : (registry.winSorted.toList.map (·.win)).Nodup
  live : ∀ entry, entry ∈ registry.winSorted.toList ↔
    ∃ memory, registry.windows entry.win = some ⟨memory, entry.userAddr, entry.size⟩
  room : registry.winSorted.count ≤ registry.winSorted.capacity
  listed : Listed registry.memories
  counted : ∀ memory, refsOf memory registry.memories = windowsOn registry memory

theorem consistent_init : Consistent init where
  sorted := List.Pairwise.nil
  distinct := nodup_nil
  live := fun entry => by simp [init, DevrList.toList]
  room := le_rfl
  listed := ⟨nodup_nil, fun _ member => nomatch member⟩
  counted := fun _ => rfl

section

theorem Consistent.absent (consistent : Consistent registry) (free : registry.windows win = none) :
    ∀ entry ∈ registry.winSorted.toList, entry.win ≠ win := by
  rintro entry member rfl
  obtain ⟨memory, is⟩ := (consistent.live entry).mp member
  rw [free] at is
  cases is

/-- The entry of a window. -/
theorem Consistent.entry (consistent : Consistent registry) (is : registry.windows win = some winHost) :
    ∃ i < registry.winSorted.count, registry.winSorted.elems i = ⟨winHost.userPtr, winHost.size, win⟩ := by
  refine (mem_toList _).mp ((consistent.live _).mpr ⟨winHost.memory, is⟩)

variable {entry : DevrWindowSorted}

theorem pairwise_insert {entries : List DevrWindowSorted} {i : Nat}
    (sorted : entries.Pairwise fun a b => a.userAddr ≤ b.userAddr)
    (before : ∀ a ∈ entries.take i, a.userAddr ≤ entry.userAddr)
    (behind : ∀ b ∈ entries.drop i, entry.userAddr ≤ b.userAddr) :
    (entries.take i ++ entry :: entries.drop i).Pairwise fun a b => a.userAddr ≤ b.userAddr := by
  rw [← take_append_drop i entries, pairwise_append] at sorted
  refine pairwise_append.mpr ⟨sorted.1, pairwise_cons.mpr ⟨behind, sorted.2.1⟩, fun a a_mem => ?_⟩
  exact forall_mem_cons.mpr ⟨before a a_mem, sorted.2.2 a a_mem⟩

/-- One more window. -/
theorem windowsOn_add (winHost : DevrWindow) (absent : ∀ other ∈ fewer.winSorted.toList, other.win ≠ entry.win)
    (windows : more.windows = update fewer.windows entry.win (some winHost))
    (perm : more.winSorted.toList.Perm (entry :: fewer.winSorted.toList)) (memory : Nat) :
    windowsOn more memory = windowsOn fewer memory + if memory = winHost.memory then 1 else 0 := by
  rw [windowsOn, perm.countP_eq, countP_cons, windows]
  refine congrArg₂ (· + ·) (countP_congr fun other member => ?_) (if_congr ?_ rfl rfl)
  · rw [update_of_ne (absent other member)]
  · simp [eq_comm]

variable (consistent : Consistent registry)
include consistent

/-- An array with its least upper bound for an address has the new entry in order. -/
theorem Consistent.inserted (entry : DevrWindowSorted) :
    let i := registry.winSorted.listFindSortedLub (·.userAddr) entry.userAddr
    ((registry.winSorted.listInsert i entry).toList.Pairwise fun a b => a.userAddr ≤ b.userAddr) ∧
      (registry.winSorted.listInsert i entry).toList.Perm (entry :: registry.winSorted.toList) := by
  obtain ⟨i, is, -, within, below, above⟩ := exists_lub _ _ entry.userAddr consistent.sorted
  simp only [is]
  rw [toList_listInsert _ within]
  constructor
  · refine pairwise_insert consistent.sorted (fun a member => ?_) fun b member => ?_
    · obtain ⟨k, before, rfl⟩ : ∃ k < i, registry.winSorted.elems k = a := by
        simpa [DevrList.toList, ← map_take, within] using member
      exact below k before
    · obtain ⟨k, at_k⟩ := mem_iff_getElem?.mp member
      rw [getElem?_drop, getElem?_toList] at at_k
      split at at_k
      next inside =>
        cases at_k
        exact le_of_lt (above _ le_self_add inside)
      next => cases at_k
  · refine perm_middle.trans (.cons _ ?_)
    rw [take_append_drop]

theorem Consistent.create (lsaSelfBase : Nat)
    (free : registry.windows win = none) (memory bigOffset : Nat) (userPtr : Option Nat) (size : Nat) :
    Consistent ((registry.symMemoryObtain memory bigOffset).symWindowCreate lsaSelfBase win memory userPtr size) := by
  obtain ⟨obtained, is⟩ : ∃ obtained, registry.symMemoryObtain memory bigOffset = obtained := ⟨_, rfl⟩
  obtain ⟨windows, winSorted⟩ : obtained.windows = registry.windows ∧ obtained.winSorted = registry.winSorted := by
    rw [← is, symMemoryObtain]
    split <;> exact ⟨rfl, rfl⟩
  have refs := refsOf_symMemoryObtain registry memory bigOffset
  have listed := consistent.listed.symMemoryObtain registry memory bigOffset
  rw [is] at refs listed ⊢
  obtain ⟨userAddr, userAddr_is⟩ : ∃ userAddr, userPtr.getD (lsaSelfBase +
    ((obtained.memories.find? (·.address = memory)).map (·.bigOffset)).getD 0) = userAddr := ⟨_, rfl⟩
  obtain ⟨sorted, perm⟩ := consistent.inserted ⟨userAddr, size, win⟩
  rw [symWindowCreate, userAddr_is, windows, winSorted]
  refine ⟨sorted, ?_, fun entry => ?_, ?_, listed, fun k => ?_⟩
  · refine ((perm.map _).nodup_iff).mpr (nodup_cons.mpr ⟨fun member => ?_, consistent.distinct⟩)
    obtain ⟨entry, member, same⟩ := mem_map.mp member
    exact consistent.absent free entry member same
  · rw [perm.mem_iff, mem_cons, consistent.live]
    by_cases here : entry.win = win
    · subst here
      obtain ⟨addr, bytes, pointer⟩ := entry
      simp [free, eq_comm]
    · have other : entry ≠ ⟨userAddr, size, win⟩ := fun same => here (congrArg DevrWindowSorted.win same)
      simp [update_of_ne here, other]
  · have room := consistent.room
    simp only [DevrList.listInsert]
    split <;> [split; skip] <;> omega
  · rw [refs, consistent.counted]
    exact Eq.symm (windowsOn_add ⟨memory, userAddr, size⟩ (consistent.absent free) rfl perm k)

/-- The scan finds the entry of a window. -/
theorem Consistent.scanDown (inside : place < registry.winSorted.count)
    (here : registry.winSorted.elems place = entry) :
    scanDown registry.winSorted.elems entry.userAddr entry.win
      (registry.winSorted.listFindSortedLub DevrWindowSorted.userAddr entry.userAddr) = some place := by
  obtain ⟨i, is, -, within, below, above⟩ := exists_lub _ DevrWindowSorted.userAddr entry.userAddr consistent.sorted
  rw [is]
  have behind : place < i := by
    by_contra before
    have := above place (by omega) inside
    rw [here] at this
    exact lt_irrefl _ this
  clear is above
  -- from the bound down to the place, every entry has the address
  induction i with
  | zero => omega
  | succ i ih =>
    rw [DevrRegistry.scanDown]
    rcases Nat.lt_or_eq_of_le (Nat.lt_succ_iff.mp behind) with before | rfl
    · have ordered := (pairwise_toList _).mp consistent.sorted place i before (by omega)
      have bound := below i (Nat.lt_succ_self _)
      rw [here] at ordered
      have same := bound.antisymm ordered
      have other : (registry.winSorted.elems i).win ≠ entry.win := by
        have := (pairwise_toList _).mp (pairwise_map.mp consistent.distinct) place i before (by omega)
        rw [here] at this
        exact this.symm
      rw [if_neg (not_not.mpr same), if_pos other]
      exact ih (by omega) (fun j earlier => below j (by omega)) before
    · rw [here, if_neg (not_not.mpr rfl), if_neg (not_not.mpr rfl)]

theorem Consistent.eraseIdx (inside : place < registry.winSorted.count)
    (here : registry.winSorted.elems place = entry) :
    registry.winSorted.toList.eraseIdx place = registry.winSorted.toList.filter (·.win != entry.win) ∧
      registry.winSorted.toList.Perm (entry :: registry.winSorted.toList.eraseIdx place) := by
  have nodup := consistent.distinct.of_map
  have at_place : registry.winSorted.toList[place]? = some entry := by rw [getElem?_toList_of_lt _ inside, here]
  obtain ⟨bound, is⟩ := List.getElem?_eq_some_iff.mp at_place
  refine ⟨?_, is ▸ (getElem_cons_eraseIdx_perm bound).symm⟩
  rw [← nodup.erase_getElem place bound, is, nodup.erase_eq_filter]
  refine filter_congr fun other member => ?_
  have entry_mem := mem_of_getElem? at_place
  have inj := inj_on_of_nodup_map consistent.distinct member entry_mem
  rw [Bool.eq_iff_iff, bne_iff_ne, bne_iff_ne]
  exact not_congr ⟨fun same => by rw [same], inj⟩

/-- What `symWindowDestroy` leaves: the window is found, and only it is gone. -/
theorem Consistent.symWindowDestroy (is : registry.windows win = some winHost) :
    ∃ destroyed, registry.symWindowDestroy win = some (destroyed, true) ∧
      destroyed.windows = update registry.windows win none ∧
      destroyed.winSorted.toList = registry.winSorted.toList.filter (·.win != win) ∧
      registry.winSorted.toList.Perm (⟨winHost.userPtr, winHost.size, win⟩ :: destroyed.winSorted.toList) ∧
      destroyed.winSorted.count ≤ destroyed.winSorted.capacity ∧
      destroyed.memories = dropRef winHost.memory registry.memories := by
  obtain ⟨place, inside, here⟩ := consistent.entry is
  have scan := consistent.scanDown inside here
  obtain ⟨erased, perm⟩ := consistent.eraseIdx inside here
  rw [← toList_listRemove _ inside] at erased perm
  have room := consistent.room
  rw [DevrRegistry.symWindowDestroy, is, Option.map_some]
  simp only at scan erased ⊢
  rw [scan]
  refine ⟨_, rfl, rfl, erased, perm, ?_, rfl⟩
  simp only [DevrList.listRemove]
  omega

theorem Consistent.destroy (result : registry.symWindowDestroy win = some (destroyed, found)) :
    Consistent destroyed := by
  cases is : registry.windows win with
  | none =>
    rw [DevrRegistry.symWindowDestroy, is] at result
    cases result
  | some winHost =>
    obtain ⟨after, result', windows, entries, perm, room, memories⟩ := consistent.symWindowDestroy is
    rw [result'] at result
    cases result
    refine ⟨?_, ?_, fun entry => ?_, room, ?_, fun k => ?_⟩
    · rw [entries]
      exact consistent.sorted.filter _
    · rw [entries]
      exact consistent.distinct.sublist (filter_sublist.map _)
    · rw [entries, windows, mem_filter, consistent.live]
      by_cases here : entry.win = win <;> simp [here]
    · rw [memories]
      exact consistent.listed.dropRef _
    · have absent : ∀ entry ∈ destroyed.winSorted.toList, entry.win ≠ win := by simp [entries]
      have restored : registry.windows = update destroyed.windows win (some winHost) := by
        rw [windows, update_idem, ← is, update_eq_self]
      rw [memories, consistent.listed.refsOf_dropRef, consistent.counted, windowsOn_add winHost absent restored perm,
        Nat.add_sub_cancel]

theorem Consistent.step {next : DevrRegistry} (steps : registry.step lsaSelfBase call = some next) :
    Consistent next := by
  cases call with
  | create win memory bigOffset userPtr size =>
    simp only [DevrRegistry.step] at steps
    split at steps
    next allowed =>
      cases steps
      exact consistent.create lsaSelfBase (Option.isNone_iff_eq_none.mp allowed.1) memory bigOffset userPtr size
    next => cases steps
  | destroy =>
    obtain ⟨⟨destroyed, found⟩, result, rfl⟩ := Option.map_eq_some_iff.mp steps
    exact consistent.destroy result

end

/-- A window's range contains an address. -/
def DevrWindow.Contains (winHost : DevrWindow) (ptr : Nat) : Prop :=
  winHost.userPtr ≤ ptr ∧ ptr < winHost.userPtr + winHost.size

/-- No window reaches past the end of one behind it, except where the next one begins. -/
def Unhidden (registry : DevrRegistry) : Prop :=
  let elems := registry.winSorted.elems
  ∀ i < registry.winSorted.count, ∀ j < i,
    (elems j).userAddr + (elems j).size ≤ (elems i).userAddr + (elems i).size ∨
      (i + 1 < registry.winSorted.count ∧ (elems (i + 1)).userAddr ≤ (elems i).userAddr + (elems i).size)

/-- Only the last window that begins at or before the address counts. -/
theorem Consistent.find_iff (consistent : Consistent registry) (ptr win : Nat) :
    registry.ncclDevrFindWindow ptr = some win ↔
      ∃ i < registry.winSorted.count, (registry.winSorted.elems i).win = win ∧
        (registry.winSorted.elems i).userAddr ≤ ptr ∧
        ptr < (registry.winSorted.elems i).userAddr + (registry.winSorted.elems i).size ∧
        ∀ k, i < k → k < registry.winSorted.count → ptr < (registry.winSorted.elems k).userAddr := by
  obtain ⟨lub, is, -, within, below, above⟩ := exists_lub _ DevrWindowSorted.userAddr ptr consistent.sorted
  rw [ncclDevrFindWindow]
  simp only [is]
  constructor
  · intro found
    split at found
    next hit =>
      cases found
      have starts := below (lub - 1) (by omega)
      exact ⟨lub - 1, by omega, rfl, starts, by omega, fun k behind inside => above k (by omega) inside⟩
    next => cases found
  · rintro ⟨i, inside, rfl, starts, ends, later⟩
    have here : lub = i + 1 := by
      rcases lt_trichotomy lub (i + 1) with before | same | behind
      · have := above i (by omega) inside
        omega
      · exact same
      · have := below (i + 1) behind
        have := later (i + 1) (by omega) (by omega)
        omega
    subst here
    rw [Nat.add_sub_cancel, if_pos ⟨by omega, by omega⟩]

theorem Consistent.find_sound (consistent : Consistent registry) (found : registry.ncclDevrFindWindow ptr = some win) :
    ∃ winHost, registry.windows win = some winHost ∧ DevrWindow.Contains winHost ptr := by
  obtain ⟨i, inside, rfl, starts, ends, -⟩ := (consistent.find_iff ptr win).mp found
  obtain ⟨memory, is⟩ := (consistent.live _).mp ((mem_toList _).mpr ⟨i, inside, rfl⟩)
  exact ⟨_, is, starts, ends⟩

theorem Consistent.find_complete_iff (consistent : Consistent registry) :
    (∀ ptr win winHost, registry.windows win = some winHost → DevrWindow.Contains winHost ptr →
      (registry.ncclDevrFindWindow ptr).isSome) ↔ Unhidden registry := by
  constructor
  · intro complete i inside j before
    by_contra hidden
    obtain ⟨reaches, alone⟩ := not_or.mp hidden
    have ordered := (pairwise_toList _).mp consistent.sorted j i before inside
    obtain ⟨memory, is⟩ := (consistent.live _).mp ((mem_toList _).mpr ⟨j, by omega, rfl⟩)
    -- the first address behind window i is in window j
    have found := complete ((registry.winSorted.elems i).userAddr + (registry.winSorted.elems i).size) _ _ is
      ⟨by simp only; omega, by simp only; omega⟩
    obtain ⟨win, found⟩ := Option.isSome_iff_exists.mp found
    obtain ⟨k, k_inside, -, starts, ends, later⟩ := (consistent.find_iff _ _).mp found
    rcases lt_trichotomy k i with earlier | rfl | behind
    · have := later i earlier inside
      omega
    · omega
    · have next := key_mono consistent.sorted (i + 1) k behind k_inside
      exact alone ⟨by omega, by omega⟩
  · intro unhidden ptr win winHost is contains
    obtain ⟨j, inside, here⟩ := consistent.entry is
    have starts : (registry.winSorted.elems j).userAddr ≤ ptr := by rw [here]; exact contains.1
    have ends : ptr < (registry.winSorted.elems j).userAddr + (registry.winSorted.elems j).size := by
      rw [here]; exact contains.2
    obtain ⟨lub, -, -, within, below, above⟩ := exists_lub _ DevrWindowSorted.userAddr ptr consistent.sorted
    have behind : j < lub := by
      by_contra before
      have := above j (by omega) inside
      omega
    obtain ⟨i, rfl⟩ : ∃ i, lub = i + 1 := ⟨lub - 1, by omega⟩
    have first := below i (Nat.lt_succ_self i)
    have covered : ptr < (registry.winSorted.elems i).userAddr + (registry.winSorted.elems i).size := by
      rcases Nat.lt_or_eq_of_le (Nat.lt_succ_iff.mp behind) with before | rfl
      · rcases unhidden i (by omega) j before with reaches | ⟨more, next⟩
        · omega
        · have := above (i + 1) le_rfl more
          omega
      · exact ends
    refine Option.isSome_iff_exists.mpr ⟨_, (consistent.find_iff ptr _).mpr ⟨i, by omega, rfl, first, covered, ?_⟩⟩
    intro k later k_inside
    exact above k later k_inside

/-- After every sequence of calls the registry keeps what is registered and destroys what it
is told to, and every pointer into a window is found exactly when no window is hidden. -/
theorem finds_every_pointer_iff (lsaSelfBase : Nat) (calls : List DevrWindowCall) (registry : DevrRegistry)
    (run : calls.foldlM (DevrRegistry.step lsaSelfBase) DevrRegistry.init = some registry) :
    -- the array is sorted and holds exactly the live windows
    (registry.winSorted.toList.Pairwise fun a b => a.userAddr ≤ b.userAddr) ∧
    (registry.winSorted.toList.map (·.win)).Nodup ∧
    (∀ entry, entry ∈ registry.winSorted.toList ↔
      ∃ memory, registry.windows entry.win = some ⟨memory, entry.userAddr, entry.size⟩) ∧
    -- a memory object has one reference of each window on it, and is listed while it has one
    (registry.memories.map (·.address)).Nodup ∧
    (∀ mem ∈ registry.memories, mem.refCount = windowsOn registry mem.address) ∧
    (∀ memory, (∃ mem ∈ registry.memories, mem.address = memory) ↔ 0 < windowsOn registry memory) ∧
    -- a window is found and only it is removed
    (∀ win winHost, registry.windows win = some winHost →
      ∃ destroyed, registry.symWindowDestroy win = some (destroyed, true) ∧
        destroyed.windows = update registry.windows win none ∧
        destroyed.winSorted.toList = registry.winSorted.toList.filter (·.win != win)) ∧
    (∀ ptr win, registry.ncclDevrFindWindow ptr = some win →
      ∃ winHost, registry.windows win = some winHost ∧ DevrWindow.Contains winHost ptr) ∧
    ((∀ ptr win winHost, registry.windows win = some winHost → DevrWindow.Contains winHost ptr →
      (registry.ncclDevrFindWindow ptr).isSome) ↔ Unhidden registry) := by
  have consistent := Lib.foldlM_invariant run consistent_init fun consistent steps => consistent.step steps
  refine ⟨consistent.sorted, consistent.distinct, consistent.live, consistent.listed.distinct, fun mem member => ?_,
    fun memory => ?_, fun win winHost is => ?_, fun ptr win => consistent.find_sound, consistent.find_complete_iff⟩
  · rw [← consistent.counted, consistent.listed.refsOf_of_mem member]
  · rw [← consistent.counted, consistent.listed.refsOf_pos_iff]
  · obtain ⟨destroyed, result, windows, entries, -⟩ := consistent.symWindowDestroy is
    exact ⟨destroyed, result, windows, entries⟩

/-- Two windows of one memory object side by side. -/
theorem side_by_side_found : ∃ registry,
    [DevrWindowCall.create 1 7 0 (some 4096) 4096, .create 2 7 0 (some 8192) 4096].foldlM
      (DevrRegistry.step 0) DevrRegistry.init = some registry ∧
    registry.memories.map (·.refCount) = [2] ∧ Unhidden registry ∧
    ∀ ptr win winHost, registry.windows win = some winHost → DevrWindow.Contains winHost ptr →
      (registry.ncclDevrFindWindow ptr).isSome := by
  refine ⟨_, rfl, by decide, ?unhidden, (finds_every_pointer_iff 0
    [.create 1 7 0 (some 4096) 4096, .create 2 7 0 (some 8192) 4096] _ rfl).2.2.2.2.2.2.2.2.mpr ?unhidden⟩
  intro i inside j before
  obtain ⟨rfl, rfl⟩ : i = 1 ∧ j = 0 := by
    have : i < 2 := inside
    omega
  decide

/-- A window within another hides what is behind it. -/
theorem nested_window_hides : ∃ registry winHost,
    [DevrWindowCall.create 1 7 0 (some 4096) 12288, .create 2 7 0 (some 8192) 4096].foldlM
      (DevrRegistry.step 0) DevrRegistry.init = some registry ∧
    registry.windows 1 = some winHost ∧ DevrWindow.Contains winHost 12288 ∧
    registry.ncclDevrFindWindow 12288 = none :=
  ⟨_, ⟨7, 4096, 12288⟩, rfl, by decide, ⟨by decide, by decide⟩, by decide⟩

end NcclCore.DevrWindowsProofs
