import Mathlib.Data.Finset.Card
import NcclCore.BootstrapRoot
import NcclCore.Lib.Digits

/-! The roots close one ring. The ranks are split among the roots in consecutive parts; a
root answers each of its ranks once, whatever the order of the messages. -/
namespace NcclCore.BootstrapRootProofs
open Lib Function Finset

section

/-- The first rank of a root, of `m` ranks behind the offset. -/
def first (offset m k root : Nat) : Nat := offset + root * (m / k) + min root (m % k)

/-- The number of ranks of a root. -/
def count (m k root : Nat) : Nat := m / k + if root < m % k then 1 else 0

variable {offset m k root : Nat}

theorem first_succ : first offset m k (root + 1) = first offset m k root + count m k root := by
  unfold first count
  rw [Nat.add_one_mul]
  split <;> omega

theorem first_last (positive : 0 < k) : first offset m k k = offset + m := by
  have less := Nat.mod_lt m positive
  have whole := Nat.div_add_mod m k
  unfold first
  rw [min_eq_right less.le, add_assoc, whole]

theorem first_mono (before : root ≤ root') : first offset m k root ≤ first offset m k root' := by
  induction before with
  | refl => exact le_rfl
  | step =>
    rw [first_succ]
    omega

theorem count_pos (positive : 0 < k) (enough : k ≤ m) : 0 < count m k root := by
  have := Nat.div_pos enough positive
  unfold count
  omega

/-- The parts cover the ranks. -/
theorem exists_part (positive : 0 < k) (inside : offset ≤ rank) (bound : rank < offset + m) :
    ∃ root < k, first offset m k root ≤ rank ∧ rank < first offset m k root + count m k root := by
  have last : first offset m k k = offset + m := first_last positive
  have zero : first offset m k 0 = offset := by simp [first]
  -- the last root whose first rank is not behind the rank
  have exists_next : ∃ root, rank < first offset m k (root + 1) := ⟨k - 1, by rwa [Nat.sub_add_cancel positive, last]⟩
  have next := Nat.find_spec exists_next
  have least : ∀ root, rank < first offset m k (root + 1) → Nat.find exists_next ≤ root :=
    fun root => Nat.find_min' exists_next
  generalize Nat.find exists_next = root at next least
  have root_lt : root ≤ k - 1 := least _ (by rwa [Nat.sub_add_cancel positive, last])
  refine ⟨root, by omega, ?_, by rwa [first_succ] at next⟩
  cases root with
  | zero => rwa [zero]
  | succ before =>
    by_contra behind
    have := least before (Nat.not_le.mp behind)
    omega

theorem firstRankFromRoot_eq (within : offset ≤ n) :
    firstRankFromRoot root n k offset = first offset (n - offset) k root := by
  have : ¬ (root : Int) = -1 := by omega
  have cast : (n : Int) - offset = (n - offset : Nat) := by omega
  simp only [firstRankFromRoot, this, if_false, first, cast, ← Int.natCast_ediv, ← Int.natCast_emod]
  omega

theorem pid_eq (inside : root < k) : bootstrapPid root k = root := by
  rw [bootstrapPid, Int.add_emod_right]
  exact Int.emod_eq_of_lt (by omega) (by omega)

theorem nRankFromRoot_eq (within : offset ≤ n) (inside : root < k) :
    nRankFromRoot root n k offset = count (n - offset) k root := by
  have : ¬ (root : Int) = -1 := by omega
  simp only [nRankFromRoot, this, if_false, pid_eq inside, count]
  push_cast [Nat.cast_sub within]
  have same : ((root : Int) < ((n : Int) - offset) % k) ↔ root < (n - offset) % k := by
    norm_cast
  simp [same]

theorem localIdFromRoot_eq (within : offset ≤ n) (inside : root < k) (rank : Int) :
    localIdFromRoot rank root n k offset = rank - first offset (n - offset) k root := by
  have : ¬ (root : Int) = -1 := by omega
  simp [localIdFromRoot, pid_eq inside, firstRankFromRoot_eq within]

/-- A rank of the part of a root has this root. -/
theorem rootIdFromRank_of_part (within : offset ≤ n) (positive : 0 < k) (inside : l < count (n - offset) k root) :
    rootIdFromRank (first offset (n - offset) k root + l : Nat) n k offset = root := by
  generalize isM : n - offset = m at *
  have cast : (n : Int) - offset = m := by omega
  have not_first : ¬ ((k : Int) = 0 ∨ ((first offset m k root + l : Nat) : Int) < offset) := by
    unfold first
    omega
  have behind : ((first offset m k root + l : Nat) : Int) - offset = (root * (m / k) + min root (m % k) + l : Nat) := by
    unfold first
    omega
  unfold rootIdFromRank
  rw [if_neg not_first]
  simp only [cast, behind]
  norm_cast
  unfold count at inside
  generalize m / k = q at *
  generalize m % k = t at *
  by_cases early : root < t
  · rw [if_pos early] at inside
    have place : root * q + min root t + l = root * (q + 1) + l := by
      rw [min_eq_left early.le, Nat.mul_add_one]
    rw [place, if_pos (digits_lt early inside)]
    norm_cast
    exact digits_div inside
  · rw [if_neg early, add_zero] at inside
    have late := Nat.not_lt.mp early
    obtain ⟨e, rfl⟩ := Nat.exists_eq_add_of_le late
    have place : (t + e) * q + min (t + e) t + l = t * (q + 1) + (e * q + l) := by
      rw [add_mul, Nat.mul_add_one]
      omega
    rw [place, if_neg (by omega)]
    have back : ((t * (q + 1) + (e * q + l) : Nat) : Int) - (t * (q + 1) : Nat) = (e * q + l : Nat) := by omega
    rw [Int.subNatNat_eq_coe, back]
    norm_cast
    rw [digits_div inside, add_comm]

end

/-- What a root has to do: the ranks it answers, by local id, and the messages it waits for. -/
structure Duty (Address Info : Type) [Zero Address] [Zero Info] where
  nranks : Int
  iroot : Int
  nroots : Int
  offset : Int
  n2send : Nat
  nrecv : Nat
  address : Nat → Address
  info : Nat → Info
  n2send_eq : nRankFromRoot iroot nranks nroots offset = n2send
  nrecv_eq : nrecv = n2send + if 0 < offset ∨ 1 < nroots then 1 else 0
  positive : 0 < n2send
  address_ne : ∀ l, address l ≠ 0
  info_ne : ∀ l, info l ≠ 0

section
variable {Address Info : Type} [Zero Address] [Zero Info] {duty : Duty Address Info}

section
variable (duty : Duty Address Info)

/-- The local id of the next rank. -/
def Duty.next (l : Nat) : Nat := (l + 1) % duty.nrecv

/-- The message with a local id. -/
structure Duty.Message (l : Nat) (message : ExtInfo Address Info) : Prop where
  nranks : message.nranks = duty.nranks
  iroot : message.iroot = duty.iroot
  nroots : message.nroots = duty.nroots
  offset : message.offset = duty.offset
  localId : localIdFromRoot message.rank duty.iroot duty.nranks duty.nroots duty.offset = l
  address : l < duty.n2send → message.listenRootAddress = duty.address l
  info : message.connectInfo = duty.info l

structure Duty.SetUp (state : RootState Address Info) : Prop where
  nranks : state.nranks = duty.nranks
  iroot : state.iroot = duty.iroot
  nroots : state.nroots = duty.nroots
  offset : state.offset = duty.offset
  n2send : state.n2send = duty.n2send
  nrecv : state.nrecv = duty.nrecv

/-- The tables of a root, when these ranks have given their address and the information about
these has come in. A pair of neighbours is answered when both are there. -/
structure Duty.Pairs (arrived told : Finset Nat) (state : RootState Address Info) : Prop where
  noAddress : ∀ l, l ∉ arrived → state.rankAddressesRoot (l : Nat) = 0
  noInfo : ∀ l, l ∉ told → state.rankInfo (l : Nat) = 0
  address : ∀ l < duty.n2send, l ∈ arrived → duty.next l ∉ told → state.rankAddressesRoot l = duty.address l
  info : ∀ l < duty.n2send, l ∉ arrived → duty.next l ∈ told → state.rankInfo (duty.next l) = duty.info (duty.next l)
  either : ∀ l < duty.n2send, l ∈ arrived → duty.next l ∈ told →
    state.rankAddressesRoot l = 0 ∨ state.rankInfo (duty.next l) = 0
  sent : (state.sent : Multiset (Address × Info)) =
    ((range duty.n2send).filter fun l => l ∈ arrived ∧ duty.next l ∈ told).val.map
      fun l => (duty.address l, duty.info (duty.next l))

theorem Duty.next_cases (inside : l < duty.nrecv) :
    duty.next l = if l + 1 = duty.nrecv then 0 else l + 1 := by
  unfold Duty.next
  split
  next last => rw [last, Nat.mod_self]
  next => exact Nat.mod_eq_of_lt (by omega)

theorem Duty.n2send_le : duty.n2send ≤ duty.nrecv := by
  rw [duty.nrecv_eq]
  omega

theorem pid_next (l : Nat) : bootstrapPid (l + 1) duty.nrecv = duty.next l := by
  rw [bootstrapPid, Int.add_emod_right]
  norm_cast

end

theorem pid_prev {l nrecv : Nat} (inside : l < nrecv) :
    bootstrapPid (l - 1) nrecv = if l = 0 then (nrecv : Int) - 1 else l - 1 := by
  unfold bootstrapPid
  split
  next zero =>
    rw [zero]
    exact Int.emod_eq_of_lt (by omega) (by omega)
  next more =>
    rw [Int.add_emod_right]
    exact Int.emod_eq_of_lt (by omega) (by omega)

theorem prev_iff {state : RootState Address Info} (setUp : duty.SetUp state) (inside : l₀ < duty.nrecv) {l : Nat}
    (own : l < duty.n2send) : state.prev l₀ = l ↔ duty.next l = l₀ := by
  have size := duty.nrecv_eq
  rw [RootState.prev, setUp.nroots, setUp.nrecv, duty.next_cases (by omega), pid_prev inside]
  by_cases many : 1 < duty.nroots
  · rw [if_pos many]
    rw [if_pos (.inr many)] at size
    split <;> omega
  · rw [if_neg many]
    split <;> split <;> omega

end

theorem update_nat {α : Type} (f : Int → α) {i j : Nat} (x : α) (other : j ≠ i) :
    update f (i : Int) x j = f j := update_of_ne (by omega) _ _

/-- The set of the answered pairs grows by one. -/
theorem map_filter_insert {α : Type} {m p : Nat} {P P' : Nat → Prop} [DecidablePred P] [DecidablePred P'] (f : Nat → α)
    (bound : p < m) (fresh : ¬ P p) (grows : ∀ l, l < m → (P' l ↔ l = p ∨ P l)) :
    ((range m).filter P').val.map f = f p ::ₘ ((range m).filter P).val.map f := by
  have same : (range m).filter P' = insert p ((range m).filter P) := by
    ext l
    simp only [mem_filter, mem_range, mem_insert]
    constructor
    · rintro ⟨inside, holds⟩
      exact ((grows l inside).mp holds).imp_right fun holds => ⟨inside, holds⟩
    · rintro (rfl | ⟨inside, holds⟩)
      · exact ⟨bound, (grows l bound).mpr (.inl rfl)⟩
      · exact ⟨inside, (grows l inside).mpr (.inr holds)⟩
  rw [same, insert_val_of_notMem (by simp [fresh]), Multiset.map_cons]

theorem coe_snoc {α : Type} (xs : List α) (x : α) : ((xs ++ [x] : List α) : Multiset α) = x ::ₘ (xs : Multiset α) := by
  exact Multiset.coe_eq_coe.mpr (List.perm_append_singleton x xs)

section
variable [DecidableEq Address] [Zero Address] [Zero Info] {duty : Duty Address Info}

theorem Duty.SetUp.answerPrev (setUp : duty.SetUp state) (localId : Int) (message : ExtInfo Address Info) :
    duty.SetUp (state.answerPrev localId message) := by
  unfold RootState.answerPrev
  dsimp only
  split <;> exact { setUp with }

theorem Duty.Pairs.answerPrev (pairs : duty.Pairs arrived told state) (setUp : duty.SetUp state)
    (inside : l₀ < duty.nrecv) (fresh : l₀ ∉ told) {message : ExtInfo Address Info} (is : duty.Message l₀ message) :
    duty.Pairs arrived (insert l₀ told) (state.answerPrev l₀ message) := by
  have prev := fun l own => prev_iff setUp (l := l) inside own
  simp only [RootState.answerPrev, setUp.n2send]
  generalize state.prev l₀ = p at prev
  split
  next ready =>
    -- the previous rank waits
    obtain ⟨low, high, waiting⟩ := ready
    obtain ⟨p, rfl⟩ := Int.eq_ofNat_of_zero_le low
    have own : p < duty.n2send := by omega
    have is_next := (prev p own).mp rfl
    have there : p ∈ arrived := by
      by_contra away
      exact waiting (pairs.noAddress p away)
    have kept := pairs.address p own there (is_next ▸ fresh)
    have only : ∀ l, l < duty.n2send → duty.next l = l₀ → l = p := fun l own is => by
      have := (prev l own).mpr is
      omega
    refine ⟨pairs.noAddress, fun l away => pairs.noInfo l (mt mem_insert_of_mem away), fun l own there away =>
      pairs.address l own there (mt mem_insert_of_mem away), fun l own away comes => ?_, fun l own there comes => ?_, ?_⟩
    · rcases mem_insert.mp comes with now | before
      · exact absurd (only l own now ▸ there) away
      · exact pairs.info l own away before
    · rcases mem_insert.mp comes with now | before
      · exact .inr (by rw [now]; exact pairs.noInfo l₀ fresh)
      · exact pairs.either l own there before
    · rw [coe_snoc, kept, is.info, pairs.sent, ← is_next]
      refine (map_filter_insert _ own (fun ⟨_, old⟩ => fresh (is_next ▸ old)) fun l own => ?_).symm
      rw [is_next, mem_insert, and_or_left]
      refine or_congr_left ⟨fun ⟨_, now⟩ => only l own now, ?_⟩
      rintro rfl
      exact ⟨there, is_next⟩
  next waits =>
    -- the previous rank is not there, or has another root
    have nobody : ∀ l, l < duty.n2send → l ∈ arrived → duty.next l ≠ l₀ := by
      intro l own there is
      have at_ := (prev l own).mpr is
      refine waits ⟨by omega, by omega, ?_⟩
      rw [at_, pairs.address l own there (is ▸ fresh)]
      exact duty.address_ne l
    refine ⟨pairs.noAddress, fun l away => ?_, fun l own there away =>
      pairs.address l own there (mt mem_insert_of_mem away), fun l own away comes => ?_, fun l own there comes => ?_, ?_⟩
    · rw [mem_insert, not_or] at away
      simp only [update_nat _ _ away.1]
      exact pairs.noInfo l away.2
    · simp only
      by_cases now : duty.next l = l₀
      · rw [now, update_self, is.info]
      · rw [update_nat _ _ now]
        exact pairs.info l own away ((mem_insert.mp comes).resolve_left now)
    · simp only
      have other := nobody l own there
      rw [update_nat _ _ other]
      exact pairs.either l own there ((mem_insert.mp comes).resolve_left other)
    · rw [pairs.sent]
      congr 2
      refine filter_congr fun l own => and_congr_right fun there => ?_
      rw [mem_insert, or_iff_right (nobody l (mem_range.mp own) there)]

end

section
variable [DecidableEq Info] [Zero Address] [Zero Info] {duty : Duty Address Info}

theorem Duty.SetUp.answerNext (setUp : duty.SetUp state) (localId : Int) (message : ExtInfo Address Info) :
    duty.SetUp (state.answerNext localId message) := by
  unfold RootState.answerNext
  dsimp only
  split <;> exact { setUp with }

theorem Duty.Pairs.answerNext (pairs : duty.Pairs arrived told state) (setUp : duty.SetUp state)
    (fresh : l₀ ∉ arrived) {message : ExtInfo Address Info} (is : duty.Message l₀ message) :
    duty.Pairs (insert l₀ arrived) told (state.answerNext l₀ message) := by
  simp only [RootState.answerNext, setUp.nrecv, setUp.n2send, pid_next]
  split
  next ready =>
    obtain ⟨-, own₀, known⟩ := ready
    have own₀ : l₀ < duty.n2send := by omega
    have comes₀ : duty.next l₀ ∈ told := by
      by_contra away
      exact known (pairs.noInfo _ away)
    have kept := pairs.info l₀ own₀ fresh comes₀
    refine ⟨fun l away => pairs.noAddress l (mt mem_insert_of_mem away), pairs.noInfo, fun l own there away => ?_,
      fun l own away => pairs.info l own (mt mem_insert_of_mem away), fun l own there comes => ?_, ?_⟩
    · rcases mem_insert.mp there with rfl | before
      · exact absurd comes₀ away
      · exact pairs.address l own before away
    · rcases mem_insert.mp there with rfl | before
      · exact .inl (pairs.noAddress l fresh)
      · exact pairs.either l own before comes
    · rw [coe_snoc, kept, is.address own₀, pairs.sent]
      refine (map_filter_insert _ own₀ (fun ⟨old, _⟩ => fresh old) fun l own => ?_).symm
      rw [mem_insert, or_and_right]
      refine or_congr_left ⟨And.left, ?_⟩
      rintro rfl
      exact ⟨rfl, comes₀⟩
  next waits =>
    have unknown : l₀ < duty.n2send → duty.next l₀ ∉ told := by
      intro own comes
      refine waits ⟨by omega, by omega, ?_⟩
      rw [pairs.info l₀ own fresh comes]
      exact duty.info_ne _
    refine ⟨fun l away => ?_, pairs.noInfo, fun l own there away => ?_,
      fun l own away => pairs.info l own (mt mem_insert_of_mem away), fun l own there comes => ?_, ?_⟩
    · rw [mem_insert, not_or] at away
      simp only [update_nat _ _ away.1]
      exact pairs.noAddress l away.2
    · simp only
      by_cases now : l = l₀
      · subst now
        rw [update_self, is.address own]
      · rw [update_nat _ _ now]
        exact pairs.address l own ((mem_insert.mp there).resolve_left now) away
    · simp only
      have other : l ≠ l₀ := fun now => unknown (now ▸ own) (now ▸ comes)
      rw [update_nat _ _ other]
      exact pairs.either l own ((mem_insert.mp there).resolve_left other) comes
    · rw [pairs.sent]
      congr 2
      refine filter_congr fun l own => ?_
      rw [mem_insert]
      refine ⟨fun ⟨there, comes⟩ => ⟨.inr there, comes⟩, fun ⟨there, comes⟩ => ⟨there.resolve_left ?_, comes⟩⟩
      exact fun now => unknown (now ▸ mem_range.mp own) (now ▸ comes)

end

variable {Address Info : Type} [DecidableEq Address] [DecidableEq Info] [Zero Address] [Zero Info]
  {duty : Duty Address Info} {state : RootState Address Info} {arrived : Finset Nat}

theorem answers_c (state : RootState Address Info) (localId : Int) (message : ExtInfo Address Info) :
    ((state.answerPrev localId message).answerNext localId message).c = state.c := by
  have first : (state.answerPrev localId message).c = state.c := by
    unfold RootState.answerPrev
    dsimp only
    split <;> rfl
  rw [← first]
  unfold RootState.answerNext
  dsimp only
  split <;> rfl

/-- A root behind these messages. -/
structure Duty.Inv (duty : Duty Address Info) (arrived : Finset Nat) (state : RootState Address Info) : Prop where
  pairs : duty.Pairs arrived arrived state
  counted : state.c = arrived.card
  setUp : state.c ≠ 0 → duty.SetUp state

omit [DecidableEq Address] [DecidableEq Info] in
theorem Duty.Inv.afterSetup (inv : duty.Inv arrived state) (is : duty.Message l₀ message) :
    duty.SetUp (state.setup message) ∧ duty.Pairs arrived arrived (state.setup message) ∧
      (state.setup message).c = state.c := by
  unfold RootState.setup
  split
  next zero =>
    have size := duty.nrecv_eq
    refine ⟨⟨is.nranks, is.iroot, is.nroots, is.offset, ?_, ?_⟩, { inv.pairs with }, rfl⟩
    · simp [is.nranks, is.iroot, is.nroots, is.offset, duty.n2send_eq]
    · simp only [is.nranks, is.iroot, is.nroots, is.offset, duty.n2send_eq]
      rw [size]
      push_cast
      rfl
  next more => exact ⟨inv.setUp more, inv.pairs, rfl⟩

theorem Duty.Inv.checkIn (inv : duty.Inv arrived state) (inside : l₀ < duty.nrecv) (fresh : l₀ ∉ arrived)
    (is : duty.Message l₀ message) :
    ∃ next, state.checkIn message = .ok next ∧ duty.Inv (insert l₀ arrived) next := by
  obtain ⟨setUp, pairs, counted⟩ := inv.afterSetup is
  unfold RootState.checkIn
  generalize state.setup message = ready at setUp pairs counted
  have same : ¬ (ready.nranks ≠ message.nranks ∨ ready.nroots ≠ message.nroots ∨ ready.iroot ≠ message.iroot ∨
      ready.offset ≠ message.offset) := by
    simp [setUp.nranks, setUp.nroots, setUp.iroot, setUp.offset, is.nranks, is.nroots, is.iroot, is.offset]
  have id : localIdFromRoot message.rank ready.iroot ready.nranks ready.nroots ready.offset = l₀ := by
    rw [setUp.nranks, setUp.nroots, setUp.iroot, setUp.offset, is.localId]
  have range : ¬ ((l₀ : Int) < 0 ∨ ready.nrecv ≤ l₀) := by
    rw [setUp.nrecv]
    omega
  have first : ¬ (ready.rankAddressesRoot l₀ ≠ 0 ∨ ready.rankInfo l₀ ≠ 0) := by
    rw [pairs.noAddress l₀ fresh, pairs.noInfo l₀ fresh]
    simp
  simp only [if_neg same, id, if_neg range, if_neg first]
  refine ⟨_, rfl, ?_⟩
  have told := pairs.answerPrev setUp inside fresh is
  have both := told.answerNext (setUp.answerPrev _ _) fresh is
  have after := (setUp.answerPrev l₀ message).answerNext l₀ message
  have steps := answers_c ready l₀ message
  refine ⟨{ both with }, ?_, fun _ => { after with }⟩
  rw [card_insert_of_notMem fresh, ← inv.counted, ← counted, steps]

/-- When all are there, all is sent. -/
theorem Duty.Inv.sendRemaining (inv : duty.Inv (range duty.nrecv) state) (some_ : state.c ≠ 0) :
    state.sendRemaining = [] := by
  have setUp := inv.setUp some_
  have bound := duty.n2send_le
  unfold RootState.sendRemaining
  rw [List.flatMap_eq_nil_iff]
  intro l member
  rw [setUp.n2send, List.mem_range] at member
  rw [setUp.nrecv, pid_next]
  refine if_neg fun ⟨address, info⟩ => ?_
  have next : duty.next l < duty.nrecv := Nat.mod_lt _ (by omega)
  rcases inv.pairs.either l member (mem_range.mpr (by omega)) (mem_range.mpr next) with zero | zero
  · exact address zero
  · exact info zero

/-- The local id of a message. -/
def Duty.localId (duty : Duty Address Info) (message : ExtInfo Address Info) : Nat :=
  (localIdFromRoot message.rank duty.iroot duty.nranks duty.nroots duty.offset).toNat

theorem Duty.Inv.run (inv : duty.Inv arrived state)
    (good : ∀ message ∈ messages, duty.Message (duty.localId message) message)
    (distinct : (messages.map duty.localId).Nodup)
    (rest : ∀ l, l ∈ messages.map duty.localId ↔ l < duty.nrecv ∧ l ∉ arrived)
    (within : arrived ⊆ range duty.nrecv) (more : messages ≠ []) :
    ∃ sent, state.bootstrapRoot messages = .ends sent [] ∧
      sent.Perm ((List.range duty.n2send).map fun l => (duty.address l, duty.info (duty.next l))) := by
  induction messages generalizing state arrived with
  | nil => exact absurd rfl more
  | cons message messages ih =>
    obtain ⟨inside, fresh⟩ := (rest _).mp (List.mem_cons_self)
    obtain ⟨next, taken, inv'⟩ := inv.checkIn inside fresh (good message List.mem_cons_self)
    rw [List.map_cons, List.nodup_cons] at distinct
    have rest' : ∀ l, l ∈ messages.map duty.localId ↔ l < duty.nrecv ∧ l ∉ insert (duty.localId message) arrived := by
      intro l
      have here := rest l
      rw [List.map_cons, List.mem_cons] at here
      rw [mem_insert, not_or]
      constructor
      · intro member
        obtain ⟨inside, fresh⟩ := here.mp (.inr member)
        exact ⟨inside, fun is => distinct.1 (is ▸ member), fresh⟩
      · rintro ⟨inside, other, fresh⟩
        exact (here.mpr ⟨inside, fresh⟩).resolve_left other
    have within' := insert_subset (mem_range.mpr inside) within
    have some_ : next.c ≠ 0 := by
      rw [inv'.counted, card_insert_of_notMem fresh]
      omega
    rw [RootState.bootstrapRoot, taken]
    simp only [(inv'.setUp some_).nrecv]
    cases messages with
    | nil =>
      have all : insert (duty.localId message) arrived = range duty.nrecv := by
        refine Finset.Subset.antisymm within' fun l member => ?_
        by_contra away
        exact (List.not_mem_nil ((rest' l).mpr ⟨mem_range.mp member, away⟩)).elim
      rw [all] at inv'
      have count := inv'.counted
      rw [card_range] at count
      rw [if_neg (by omega), inv'.sendRemaining some_, List.append_nil]
      refine ⟨_, rfl, ?_⟩
      have bound := duty.n2send_le
      have sent := inv'.pairs.sent
      rw [filter_true_of_mem] at sent
      · exact Multiset.coe_eq_coe.mp sent
      · intro l member
        rw [mem_range] at member
        exact ⟨mem_range.mpr (by omega), mem_range.mpr (Nat.mod_lt _ (by omega))⟩
    | cons =>
      have open_ : next.c < duty.nrecv := by
        obtain ⟨inside', fresh'⟩ := (rest' _).mp (List.mem_cons_self)
        rw [inv'.counted, ← card_range duty.nrecv]
        refine card_lt_card ⟨within', fun all => fresh' (all (mem_range.mpr inside'))⟩
      rw [if_pos (by omega)]
      exact ih inv' (fun other member => good other (List.mem_cons_of_mem _ member)) distinct.2 rest' within'
        (List.cons_ne_nil _ _)

omit [DecidableEq Address] [DecidableEq Info] in
theorem Duty.inv_start (duty : Duty Address Info) : duty.Inv ∅ .start where
  pairs := ⟨fun _ _ => rfl, fun _ _ => rfl, fun _ _ there => by simp at there, fun _ _ _ comes => by simp at comes,
    fun _ _ there => by simp at there, by simp [RootState.start]⟩
  counted := rfl
  setUp := fun some_ => absurd rfl some_

/-- A root whose messages have all local ids answers all its ranks, once. -/
theorem Duty.ends (good : ∀ message ∈ messages, duty.Message (duty.localId message) message)
    (ids : (messages.map duty.localId).Perm (List.range duty.nrecv)) :
    ∃ sent, RootState.start.bootstrapRoot messages = .ends sent [] ∧
      sent.Perm ((List.range duty.n2send).map fun l => (duty.address l, duty.info (duty.next l))) := by
  refine duty.inv_start.run good (ids.nodup_iff.mpr List.nodup_range) (fun l => ?_) (empty_subset _) ?_
  · rw [ids.mem_iff]
    simp
  · rintro rfl
    have := ids.length_eq
    have bound := duty.n2send_le
    have positive := duty.positive
    simp at this
    omega

end NcclCore.BootstrapRootProofs
