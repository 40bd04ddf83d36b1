import NcclCore.BootstrapInit
import NcclCore.BootstrapNetProofs

/-! What a rank knows of its peers behind the start. The AllGather over the sockets or over
the network fills its tables; where it fails, the start still returns `ncclSuccess`. -/
namespace NcclCore.BootstrapInitProofs
open BootstrapRingProofs (InRange)
open BootstrapGatherProofs (Counts)
variable {Address Info : Type} {n : Nat}
variable {byte : Nat}

theorem packByte_field (tables : PeerTables) (rank : Nat) (inside : byte < field.size) :
    packByte tables rank (field.offset + byte) = contributed tables rank field byte := by
  cases field <;> simp only [RingField.size] at inside
  · simp [packByte, RingField.offset, inside]
  · simp [packByte, RingField.offset, show 28 + byte < 56 by omega]
  · simp [packByte, RingField.offset, show ¬ 56 + byte < 28 by omega, show 56 + byte < 64 by omega]
  · simp [packByte, RingField.offset, show ¬ 64 + byte < 28 by omega, show ¬ 64 + byte < 56 by omega]

theorem field_inside (field : RingField) (inside : byte < field.size) : field.offset + byte < ringDataSize := by
  cases field <;> simp only [RingField.size, RingField.offset, ringDataSize] at inside ⊢ <;> omega

theorem packRingData_field (tables : PeerTables) (rank : Nat) (inside : byte < field.size) :
    packRingData tables rank ((rank * ringDataSize + (field.offset + byte) : Nat) : Int) =
      contributed tables rank field byte := by
  have place : ((rank * ringDataSize + (field.offset + byte) : Nat) : Int) - (rank * ringDataSize : Nat) =
      (field.offset + byte : Nat) := by
    omega
  have bound := field_inside field inside
  simp only [packRingData, place]
  rw [if_pos ⟨Int.natCast_nonneg _, by exact_mod_cast bound⟩, Int.toNat_natCast, packByte_field _ _ inside]

/-- A start by `bootstrapInit` or `bootstrapSplit`. -/
def IsStart [Zero Address] (rank : Nat) (start : BootstrapStart Address Info) : Prop :=
  (∃ (self : BootstrapRank Address Info) (own : RingField → Nat → Nat) (rasFails : Bool),
    self.rank = rank ∧ bootstrapInit self own rasFails = some start) ∨
  ∃ prev next connectInfo netEnable shareResources own,
    start = bootstrapSplit rank prev next connectInfo netEnable shareResources own

/-- Before the AllGather, a rank knows of itself only. -/
theorem IsStart.others [Zero Address] {rank : Nat} {start : BootstrapStart Address Info} (is : IsStart rank start)
    {field : RingField} {table : Nat → Nat → Nat} (there : start.tables field = some table) {peer : Nat}
    (other : peer ≠ rank) (byte : Nat) : table peer byte = 0 := by
  rcases is with ⟨self, own, rasFails, rfl, is⟩ | ⟨prev, next, connectInfo, netEnable, shareResources, own, rfl⟩
  · unfold bootstrapInit at is
    split at is
    · cases is
    · cases is
      cases field <;> simp only at there
      case rasRank =>
        split at there
        · cases there
          exact if_neg other
        · cases there
      all_goals
        cases there
        exact if_neg other
  · cases field <;> simp only [bootstrapSplit] at there
    case peerAddress =>
      cases there
      exact if_neg other
    case rasRank => cases there
    all_goals
      split at there
      · cases there
      · cases there
        exact if_neg other

/-- The calls of a start that are checked, but for the AllGather. -/
def checkedCalls (start : BootstrapStart Address Info) : List (BootstrapCall Address Info) :=
  start.before ++ .ncclCalloc .ringData :: start.behind

/-- Whether `ncclSuccess` is returned does not depend on the AllGather. -/
theorem outcome_eq (start : BootstrapStart Address Info) (fails : BootstrapCall Address Info → Bool)
    (gathered : Option (Int → Nat)) :
    start.outcome fails gathered =
      if (checkedCalls start).any fails then none
      else some (match gathered with
        | none => start.tables
        | some ringData => unpackRingData start.tables ringData) := by
  simp only [BootstrapStart.outcome, ringAllInfo, checkedCalls, List.any_append, List.any_cons]
  cases start.before.any fails <;> cases fails (.ncclCalloc .ringData) <;> cases start.behind.any fails <;>
    cases gathered <;> rfl

/-- A rank that returns `ncclSuccess` has what every rank contributed. -/
def Truthful (outcome : Option PeerTables) (starts : Fin n → BootstrapStart Address Info) : Prop :=
  ∀ tables, outcome = some tables → ∀ field table, tables field = some table → ∀ (peer : Fin n) byte,
    byte < field.size → table peer byte = contributed (starts peer).tables peer field byte

/-- What was gathered, if it was, is what every rank packed. -/
def Right (gathered : Option (Int → Nat)) (starts : Fin n → BootstrapStart Address Info) : Prop :=
  ∀ data, gathered = some data → ∀ (peer : Fin n) byte, byte < ringDataSize →
    data ((peer * ringDataSize + byte : Nat) : Int) =
      packRingData (starts peer).tables peer ((peer * ringDataSize + byte : Nat) : Int)

/-- A start whose AllGather failed is truthful only if another call fails too, or if there was
nothing to learn. -/
theorem truthful_iff [Zero Address] {starts : Fin n → BootstrapStart Address Info} {r : Fin n}
    (is : IsStart r (starts r)) (fails : BootstrapCall Address Info → Bool) (right : Right gathered starts) :
    Truthful ((starts r).outcome fails gathered) starts ↔
      gathered.isSome ∨ (∃ call ∈ checkedCalls (starts r), fails call) ∨
        ∀ field, ((starts r).tables field).isSome → ∀ peer, peer ≠ r → ∀ byte, byte < field.size →
          contributed (starts peer).tables peer field byte = 0 := by
  rw [outcome_eq, ← List.any_eq_true]
  by_cases failing : (checkedCalls (starts r)).any fails = true
  · rw [if_pos failing]
    exact iff_of_true (fun _ none => nomatch none) (.inr (.inl failing))
  rw [if_neg failing]
  cases gathered with
  | some data =>
    refine iff_of_true ?_ (.inl rfl)
    rintro tables ⟨⟩ field table there peer byte inside
    obtain ⟨_, -, rfl⟩ := Option.map_eq_some_iff.mp there
    exact (right data rfl peer _ (field_inside field inside)).trans (packRingData_field _ _ inside)
  | none =>
    simp only [Option.isSome_none, Bool.false_eq_true, false_or, failing]
    constructor
    · intro truthful field present peer other byte inside
      obtain ⟨table, there⟩ := Option.isSome_iff_exists.mp present
      rw [← truthful _ rfl field table there peer byte inside]
      exact is.others there (fun same => other (Fin.ext same)) byte
    · rintro zero tables ⟨⟩ field table there peer byte inside
      by_cases own : peer = r
      · subst own
        simp [contributed, there]
      · rw [zero field (by rw [there]; rfl) peer own byte inside]
        exact is.others there (fun same => own (Fin.ext same)) byte

variable [NeZero n] {starts : Fin n → BootstrapStart Address Info}

/-- What the ranks hand to the AllGather. -/
def ringMemory (starts : Fin n → BootstrapStart Address Info) (rank : Nat) : Int → Nat :=
  packRingData (starts (Fin.ofNat n rank)).tables rank

theorem ringMemory_eq (starts : Fin n → BootstrapStart Address Info) (peer : Fin n) :
    ringMemory starts peer = packRingData (starts peer).tables peer := by
  unfold ringMemory
  rw [Fin.ofNat_val_eq_self]

theorem ring_right {events : List (RingEvent n)} {state : RingState n}
    (run : events.foldlM (RingGather.step ringDataSize capacity) (RingGather.init (ringMemory starts)) = some state)
    {r : Fin n} (result : (state.ranks r).result = some gathered) :
    (gathered.isSome ↔ .fail r ∉ events) ∧ (InRange n ringDataSize → Right gathered starts) := by
  rw [← BootstrapGatherProofs.failed_iff (by decide) r run]
  simp only [GatherRank.result] at result
  split at result
  next failed =>
    cases result
    exact ⟨by simp [failed], fun _ => nofun⟩
  next works =>
    split at result
    next ended =>
      cases result
      refine ⟨by simp [works], ?_⟩
      rintro inRange data ⟨⟩ peer byte inside
      have := BootstrapGatherProofs.gathered_of_returned (BootstrapRingProofs.Inv.run (by decide) run) inRange (r := r)
        ⟨by simpa using ended, by simpa using works⟩ peer.isLt inside
      rw [ringMemory_eq] at this
      exact_mod_cast this
    next => cases result

theorem net_right {events : List (NetEvent n)} {state : NetState n}
    (run : events.foldlM (NetGather.step ringDataSize capacity) (NetGather.init (ringMemory starts)) = some state)
    {r : Fin n} (result : (state.ranks r).result n = some gathered) :
    (gathered.isSome ↔ .fail r ∉ events) ∧ Right gathered starts := by
  rw [← BootstrapNetProofs.failed_iff r run]
  simp only [NetRank.result] at result
  split at result
  next failed =>
    cases result
    exact ⟨by simp [failed], nofun⟩
  next works =>
    split at result
    next ended =>
      cases result
      refine ⟨by simp [works], ?_⟩
      rintro data ⟨⟩ peer byte inside
      have := BootstrapNetProofs.gathered_of_returned (BootstrapNetProofs.Inv.run run) (r := r)
        ⟨ended, by simpa using works⟩ peer.isLt inside
      rw [ringMemory_eq] at this
      exact_mod_cast this
    next => cases result

/-- Without a failing call, the AllGather over the network gathers, and the one over the
sockets does if its offsets are of type `int` and no step has only empty transfers. A rank
behind the start knows what its peers contributed unless a call of its AllGather failed and no
other call did. -/
theorem bootstrap_gathers_iff (n : Nat) [NeZero n] (size capacity : Nat) (small : size < 2 ^ 31) (room : 0 < capacity) :
    ((∀ memory, BootstrapGatherProofs.Gathers n size capacity memory) ↔ Counts n size ∧ InRange n size) ∧
    (∀ memory, BootstrapNetProofs.Gathers n size capacity memory) ∧
    ∀ (Address Info : Type) [Zero Address] (starts : Fin n → BootstrapStart Address Info),
      (∀ r : Fin n, IsStart r (starts r)) → ∀ (r : Fin n) (fails : BootstrapCall Address Info → Bool) gathered failing,
      ((InRange n ringDataSize ∧ ∃ (events : List (RingEvent n)) (state : RingState n),
          events.foldlM (RingGather.step ringDataSize capacity) (RingGather.init (ringMemory starts)) = some state ∧
            (state.ranks r).result = some gathered ∧ (failing ↔ .fail r ∈ events)) ∨
        ∃ (events : List (NetEvent n)) (state : NetState n),
          events.foldlM (NetGather.step ringDataSize capacity) (NetGather.init (ringMemory starts)) = some state ∧
            (state.ranks r).result n = some gathered ∧ (failing ↔ .fail r ∈ events)) →
      (Truthful ((starts r).outcome fails gathered) starts ↔
        ¬ failing ∨ (∃ call ∈ checkedCalls (starts r), fails call) ∨
          ∀ field, ((starts r).tables field).isSome → ∀ peer, peer ≠ r → ∀ byte, byte < field.size →
            contributed (starts peer).tables peer field byte = 0) := by
  refine ⟨BootstrapGatherProofs.gathers_iff small room, fun memory => BootstrapNetProofs.gathers room, ?_⟩
  intro Address Info _ starts is r fails gathered failing runs
  rcases runs with ⟨inRange, events, state, run, result, failed⟩ | ⟨events, state, run, result, failed⟩
  · obtain ⟨isSome, right⟩ := ring_right run result
    rw [failed, ← isSome]
    exact truthful_iff (is r) fails (right inRange)
  · obtain ⟨isSome, right⟩ := net_right run result
    rw [failed, ← isSome]
    exact truthful_iff (is r) fails right

theorem three_ranks_gather : BootstrapGatherProofs.Gathers 3 1 1 fun rank _ => rank :=
  (bootstrap_gathers_iff 3 1 1 (by decide) (by decide)).1.mpr ⟨.inr Nat.one_pos, show 2 * 1 < 2 ^ 31 by decide⟩ _

/-- A rank whose AllGather fails returns `ncclSuccess` without the address of its peer; with
empty slices, three ranks wait for ever; and slices beyond the range of an `int` are written
before the data. -/
theorem bootstrap_swallows_failure :
    (∃ (starts : Fin 2 → BootstrapStart Nat Nat) (state : RingState 2) (tables : PeerTables),
      (∀ r : Fin 2, IsStart r (starts r)) ∧
      [RingEvent.fail 0].foldlM (RingGather.step ringDataSize 1) (RingGather.init (ringMemory starts)) = some state ∧
      (state.ranks 0).result = some none ∧ (starts 0).outcome (fun _ => false) none = some tables ∧
      ¬ Truthful (some tables) starts) ∧
    (¬ ∀ memory, BootstrapGatherProofs.Gathers 3 0 1 memory) ∧
    ¬ ∀ memory, BootstrapGatherProofs.Gathers 3 (2 ^ 30) 1 memory := by
  refine ⟨⟨fun r => bootstrapSplit r 0 0 0 false true fun _ _ => 7, _, _,
    fun r => .inr ⟨_, _, _, _, _, _, rfl⟩, rfl, rfl, rfl, fun truthful => ?_⟩, ?_, ?_⟩
  · have := truthful _ rfl .peerAddress _ rfl 1 0 (by decide)
    simp [ownEntry, contributed, bootstrapSplit] at this
  · rw [BootstrapGatherProofs.gathers_iff (by decide) (by decide)]
    exact fun ⟨counts, _⟩ => absurd counts (show ¬ (3 ≤ 2 ∨ 0 < 0) by decide)
  · rw [BootstrapGatherProofs.gathers_iff (by decide) (by decide)]
    exact fun ⟨_, inRange⟩ => absurd inRange (show ¬ 2 * 2 ^ 30 < 2 ^ 31 by decide)

end NcclCore.BootstrapInitProofs
