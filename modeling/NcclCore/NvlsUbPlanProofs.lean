import NcclCore.McArenaProofs
import NcclCore.NvlsUb

/-! What the ranks can read from the plan, and from the lists of retired ranges. Both are
made of what was gathered alone; here is what they say about each rank. -/
namespace NcclCore.NvlsUbProofs
open Lib McArenaProofs List
variable {n : Nat} {role : UbRole}

/-! ### Alignment -/

theorem foldl_max (values : List Nat) (start : Nat) :
    start ≤ values.foldl max start ∧ (∀ value ∈ values, value ≤ values.foldl max start) ∧
      (values.foldl max start = start ∨ values.foldl max start ∈ values) := by
  induction values generalizing start with
  | nil => exact ⟨le_rfl, nofun, .inl rfl⟩
  | cons value values ih =>
    obtain ⟨least, all, attained⟩ := ih (max start value)
    rw [foldl_cons]
    refine ⟨by omega, forall_mem_cons.mpr ⟨by omega, all⟩, ?_⟩
    rcases attained with same | member
    · rcases Nat.le_total start value with less | less
      · rw [same, max_eq_right less]
        exact .inr mem_cons_self
      · rw [same, max_eq_left less]
        exact .inl rfl
    · exact .inr (mem_cons_of_mem _ member)

/-- The largest power of two is a multiple of all. -/
theorem dvd_ubAlignment (powers : ∀ rank, ∃ k, granularity rank = 2 ^ k) (rank : Fin (n + 1)) :
    granularity rank ∣ ubAlignment granularity := by
  obtain ⟨-, all, attained⟩ := foldl_max (ofFn granularity) 0
  have less : granularity rank ≤ ubAlignment granularity := all _ (mem_ofFn.mpr ⟨rank, rfl⟩)
  obtain ⟨k, power⟩ := powers rank
  have positive := Nat.two_pow_pos k
  rcases attained with zero | member
  · rw [ubAlignment] at less
    omega
  · obtain ⟨largest, same⟩ := mem_ofFn.mp member
    have same : granularity largest = ubAlignment granularity := same
    obtain ⟨m, power'⟩ := powers largest
    rw [← same, power, power'] at less ⊢
    exact pow_dvd_pow 2 ((Nat.pow_le_pow_iff_right one_lt_two).mp less)

/-! ### The actions -/

/-- The buffer of a rank is eligible, at the offset of the first rank's. -/
structure Eligible (slot rank0Slot : UbSlotEligibility) : Prop where
  eligible : slot.eligible = true
  userOffset : slot.userOffset = rank0Slot.userOffset

/-- The rank holds a range for the buffer, at the offset of the first rank's. -/
structure Reuses (slot rank0Slot : UbSlotEligibility) : Prop extends Eligible slot rank0Slot where
  committed : slot.committed = true
  arenaOffset : slot.arenaOffset = rank0Slot.arenaOffset

/-- The rank holds no range for the buffer. -/
structure Begins (slot rank0Slot : UbSlotEligibility) : Prop extends Eligible slot rank0Slot where
  uncommitted : slot.committed = false

/-- A scan that ends has seen only eligible slots. -/
theorem scan_spec {slots : List UbSlotEligibility} {scan scan' : UbSlotScan}
    (ends : slots.foldlM (UbSlotScan.next rank0Slot) scan = some scan') :
    (∀ slot ∈ slots, Eligible slot rank0Slot) ∧
      (scan'.allCommitted = true ↔ scan.allCommitted = true ∧ ∀ slot ∈ slots, slot.committed = true) ∧
      (scan'.anyCommitted = true ↔ scan.anyCommitted = true ∨ ∃ slot ∈ slots, slot.committed = true) ∧
      (scan'.offsetsAgree = true ↔ scan.offsetsAgree = true ∧
        ∀ slot ∈ slots, slot.committed = true → slot.arenaOffset = rank0Slot.arenaOffset) := by
  induction slots generalizing scan with
  | nil =>
    cases ends
    simp
  | cons slot slots ih =>
    obtain ⟨next, step, ends⟩ := Option.bind_eq_some_iff.mp ends
    obtain ⟨all, allCommitted, anyCommitted, offsetsAgree⟩ := ih ends
    rw [UbSlotScan.next] at step
    split at step
    · exact nomatch step
    case isFalse eligible =>
      split at step
      · exact nomatch step
      case isFalse agrees =>
        cases step
        refine ⟨?_, ?_, ?_, ?_⟩
        · exact forall_mem_cons.mpr ⟨⟨by simpa using eligible, by simpa using agrees⟩, all⟩
        · rw [allCommitted]
          simp [and_assoc]
        · rw [anyCommitted]
          simp [or_assoc]
        · rw [offsetsAgree]
          have implies : (!slot.committed || slot.arenaOffset == rank0Slot.arenaOffset) = true ↔
              (slot.committed = true → slot.arenaOffset = rank0Slot.arenaOffset) := by
            cases committed : slot.committed <;> simp
          simp [implies, and_assoc]

theorem scan_reuse {scan : UbSlotScan} (action : (scan.action alignment).1 = .reuseRange) :
    scan.allCommitted = true ∧ scan.offsetsAgree = true := by
  rw [UbSlotScan.action] at action
  split_ifs at action with _ allCommitted offsetsAgree
  exact ⟨allCommitted, offsetsAgree⟩

theorem scan_new {scan : UbSlotScan} (action : (scan.action alignment).1 = .newRange) :
    scan.anyCommitted = false ∧ scan.action alignment = (.newRange, alignDown scan.bindSize alignment) := by
  rw [UbSlotScan.action] at action ⊢
  split_ifs at action ⊢ with _ _ _ unusable
  exact ⟨Bool.eq_false_iff.mpr (not_or.mp unusable).1, rfl⟩

variable {allEligibility : Fin (n + 1) → UbEligibility}

theorem forall_slot {P : UbSlotEligibility → Prop}
    (all : ∀ slot ∈ ofFn fun rank => (allEligibility rank).slot role, P slot) (rank : Fin (n + 1)) :
    P ((allEligibility rank).slot role) :=
  all _ (mem_ofFn.mpr ⟨rank, rfl⟩)

theorem action_reuse (action : (ubActionFromEligibility allEligibility role alignment).1 = .reuseRange)
    (rank : Fin (n + 1)) : Reuses ((allEligibility rank).slot role) ((allEligibility 0).slot role) := by
  rw [ubActionFromEligibility] at action
  split at action
  · exact nomatch action
  case h_2 scan ends =>
    obtain ⟨all, allCommitted, -, offsetsAgree⟩ := scan_spec ends
    have settled := scan_reuse action
    have committed := forall_slot (allCommitted.mp settled.1).2 rank
    exact ⟨forall_slot all rank, committed, forall_slot (offsetsAgree.mp settled.2).2 rank committed⟩

theorem action_new (action : (ubActionFromEligibility allEligibility role alignment).1 = .newRange) :
    (∀ rank, Begins ((allEligibility rank).slot role) ((allEligibility 0).slot role)) ∧
      alignment ∣ (ubActionFromEligibility allEligibility role alignment).2 := by
  rw [ubActionFromEligibility] at action ⊢
  split at action
  · exact nomatch action
  case h_2 scan ends =>
    obtain ⟨all, -, anyCommitted, -⟩ := scan_spec ends
    obtain ⟨uncommitted, result⟩ := scan_new action
    rw [result]
    refine ⟨fun rank => ⟨forall_slot all rank, ?_⟩, Nat.dvd_sub_mod _⟩
    by_contra committed
    have some := anyCommitted.mpr (.inr ⟨_, mem_ofFn.mpr ⟨rank, rfl⟩, by simpa using committed⟩)
    rw [uncommitted] at some
    exact nomatch some

theorem plan_reuse (action : (ubPlan allEligibility).action role = .reuseRange) (rank : Fin (n + 1)) :
    Reuses ((allEligibility rank).slot role) ((allEligibility 0).slot role) := by
  rw [ubPlan] at action
  split at action
  · exact nomatch action
  · exact action_reuse action rank

theorem plan_new (action : (ubPlan allEligibility).action role = .newRange) :
    (∀ rank, Begins ((allEligibility rank).slot role) ((allEligibility 0).slot role)) ∧
      (ubAlignment fun rank => (allEligibility rank).granularity) ∣ (ubPlan allEligibility).bindSize role := by
  rw [ubPlan] at action ⊢
  split at action
  · exact nomatch action
  case isFalse agree =>
    rw [if_neg agree]
    exact action_new action

/-- If both roles need a new range, they share it where their registrations are one. -/
theorem plan_owner_recv (send : (ubPlan allEligibility).action .send = .newRange)
    (recv : (ubPlan allEligibility).action .recv = .newRange) (rank : Fin (n + 1)) :
    (ubPlan allEligibility).rangeOwner .recv = if (allEligibility rank).sendRecvAliased then .send else .recv := by
  rw [ubPlan] at send recv ⊢
  split at send
  · exact nomatch send
  case isFalse agree =>
    simp_all

/-! ### Retired ranges -/

theorem onEveryRank_spec (ends : onEveryRank driver cand ranks cursor = some (everywhere, cursor')) :
    (∀ rank, (cursor' rank).Sublist (cursor rank)) ∧
      (everywhere = true → ∀ rank ∈ ranks, rank ≠ driver → cand ∈ cursor rank) := by
  induction ranks generalizing cursor with
  | nil =>
    cases ends
    exact ⟨fun _ => .refl _, nofun⟩
  | cons rank ranks ih =>
    rw [onEveryRank] at ends
    split at ends
    case isTrue same =>
      obtain ⟨sublist, found⟩ := ih ends
      exact ⟨sublist, fun all => forall_mem_cons.mpr ⟨absurd same, found all⟩⟩
    case isFalse other =>
      split at ends
      · exact nomatch ends
      case h_2 peer rest drop =>
        have suffix : (peer :: rest).Sublist (cursor rank) := drop ▸ dropWhile_sublist _
        have moved : ∀ other, (Function.update cursor rank (peer :: rest) other).Sublist (cursor other) := by
          intro other
          by_cases same : other = rank
          · subst same
            rwa [Function.update_self]
          · rw [Function.update_of_ne same]
        split at ends
        · cases ends
          exact ⟨moved, nofun⟩
        case isFalse offset =>
          split at ends
          · cases ends
            exact ⟨moved, nofun⟩
          case isFalse bindSize =>
            obtain ⟨sublist, found⟩ := ih ends
            refine ⟨fun other => (sublist other).trans (moved other), fun all other member away => ?_⟩
            rcases mem_cons.mp member with rfl | member
            · have isPeer : cand = peer := by
                cases cand
                cases peer
                simp_all
              exact suffix.subset (isPeer ▸ mem_cons_self)
            · exact (moved other).subset (found all other member away)

/-- What is shared is in every list, and in the order of the list of the driver. -/
theorem sharedFrom_spec :
    (sharedFrom driver cands cursor).Sublist cands ∧
      ∀ reg ∈ sharedFrom driver cands cursor, ∀ rank, rank ≠ driver → reg ∈ cursor rank := by
  induction cands generalizing cursor with
  | nil => exact ⟨.refl _, nofun⟩
  | cons cand cands ih =>
    rw [sharedFrom]
    split
    · exact ⟨nil_sublist _, nofun⟩
    case h_2 cursor' ends =>
      obtain ⟨moved, found⟩ := onEveryRank_spec ends
      obtain ⟨sublist, rest⟩ := @ih cursor'
      refine ⟨sublist.cons_cons cand, forall_mem_cons.mpr ⟨fun rank => found rfl rank (mem_finRange rank), ?_⟩⟩
      exact fun reg member rank away => (moved rank).subset (rest reg member rank away)
    case h_3 cursor' ends =>
      obtain ⟨moved, -⟩ := onEveryRank_spec ends
      obtain ⟨sublist, rest⟩ := @ih cursor'
      exact ⟨sublist.cons cand, fun reg member rank away => (moved rank).subset (rest reg member rank away)⟩

theorem sharedRetired_sublist :
    (sharedRetired retiredCount allRetired).Sublist
      ((allRetired (driverRank retiredCount)).take (retiredCount (driverRank retiredCount))) :=
  sharedFrom_spec.1

theorem mem_sharedRetired (member : reg ∈ sharedRetired retiredCount allRetired) (rank : Fin (n + 1)) :
    reg ∈ (allRetired rank).take (retiredCount rank) := by
  by_cases same : rank = driverRank retiredCount
  · subst same
    exact sharedRetired_sublist.subset member
  · exact sharedFrom_spec.2 reg member rank same

end NcclCore.NvlsUbProofs
