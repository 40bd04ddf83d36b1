import Mathlib.Data.List.Pairwise
import NcclCore.Space

/-! `ncclSpace` against what it is for: the full segments are the ranges that were
handed out and not given back. The allocator keeps this as long as every range it
finds begins where its segment begins, and ends within the limit. -/
namespace NcclCore.SpaceProofs
open Lib List
variable {cuts : List Nat} {limit size align offset prev i lo hi : Nat}

/-! ### Dropping repeated cuts -/

/-- The loop of `insertSegment` on sorted cuts: what has been written is strictly
sorted, and `prev` is its last cut unless that was just dropped. -/
structure Filtering (written : List Nat) (prev : Nat) (unread : List Nat) : Prop where
  sorted : written.Pairwise (· > ·)
  positive : ∀ c ∈ written, 0 < c
  rest : unread.Pairwise (· ≤ ·)
  last : (prev = 0 ∧ ∀ c ∈ written, ∀ u ∈ unread, c < u) ∨
    ∃ tail, written = prev :: tail ∧ ∀ u ∈ unread, prev ≤ u

theorem Filtering.keep (state : Filtering written prev (cur :: unread)) (new : prev ≠ cur) :
    Filtering (cur :: written) cur unread := by
  obtain ⟨sorted, positive, all, last⟩ := state
  obtain ⟨least, rest⟩ := pairwise_cons.mp all
  have above : 0 < cur ∧ ∀ c ∈ written, c < cur := by
    rcases last with ⟨rfl, below⟩ | ⟨tail, rfl, below⟩
    · exact ⟨by omega, fun c member => below c member cur mem_cons_self⟩
    · have less := Nat.lt_of_le_of_ne (below cur mem_cons_self) new
      refine ⟨by omega, forall_mem_cons.mpr ⟨less, fun c member => ?_⟩⟩
      exact lt_trans ((pairwise_cons.mp sorted).1 c member) less
  exact ⟨pairwise_cons.mpr ⟨above.2, sorted⟩, forall_mem_cons.mpr ⟨above.1, positive⟩, rest, .inr ⟨written, rfl, least⟩⟩

/-- A repeated cut goes with the one before it; a zero goes alone. -/
theorem Filtering.drop (state : Filtering written cur (cur :: unread)) :
    Filtering ((cur :: written).drop (if (cur :: written).length = 1 then 1 else 2)) 0 unread ∧
      ((cur = 0 ∧ written = []) ∨ ∃ tail, written = cur :: tail) := by
  obtain ⟨sorted, positive, all, last⟩ := state
  obtain ⟨least, rest⟩ := pairwise_cons.mp all
  rcases last with ⟨rfl, below⟩ | ⟨tail, rfl, below⟩
  · cases written with
    | nil => exact ⟨⟨by simp, by simp, rest, .inl ⟨rfl, by simp⟩⟩, .inl ⟨rfl, rfl⟩⟩
    | cons c tail => exact absurd (below c mem_cons_self 0 mem_cons_self) (Nat.not_lt_zero c)
  · obtain ⟨greatest, sorted⟩ := pairwise_cons.mp sorted
    refine ⟨⟨sorted, fun c member => positive c (mem_cons_of_mem _ member), rest, .inl ⟨rfl, ?_⟩⟩, .inr ⟨tail, rfl⟩⟩
    intro c member u unread
    exact Nat.lt_of_lt_of_le (greatest c member) (least u unread)

theorem filterCuts_spec (state : Filtering written prev unread) :
    Ascending (filterCuts written prev unread) ∧ ∀ x, (filterCuts written prev unread).countP (x < ·) % 2 =
      (written.countP (x < ·) + unread.countP (x < ·)) % 2 := by
  induction unread generalizing written prev with
  | nil =>
    refine ⟨⟨pairwise_reverse.mpr state.sorted, fun c member => ?_⟩, fun x => ?_⟩
    · exact state.positive c (mem_reverse.mp member)
    · rw [filterCuts, countP_reverse, countP_nil, add_zero]
  | cons cur unread ih =>
    unfold filterCuts
    by_cases same : prev = cur
    · subst same
      obtain ⟨next, shape⟩ := state.drop
      obtain ⟨ascending, counts⟩ := ih next
      rw [if_pos rfl]
      refine ⟨ascending, fun x => ?_⟩
      rw [counts x]
      rcases shape with ⟨rfl, rfl⟩ | ⟨tail, rfl⟩
      · simp
      · simp only [length_cons, countP_cons]
        rw [if_neg (by omega)]
        simp only [drop_succ_cons, drop_zero]
        omega
    · obtain ⟨ascending, counts⟩ := ih (state.keep same)
      rw [if_neg same]
      refine ⟨ascending, fun x => ?_⟩
      rw [counts x, countP_cons, countP_cons]
      omega

/-- A range inserted into one segment. -/
theorem insertSegment_spec (ascending : Ascending cuts) (bound : i ≤ cuts.length) (low : lowCut cuts i ≤ lo)
    (ordered : lo ≤ hi) (high : ∀ inside : i < cuts.length, hi ≤ cuts[i]) :
    Ascending (insertSegment cuts i lo hi) ∧ Toggles cuts (insertSegment cuts i lo hi) lo hi := by
  have after : ∀ c ∈ cuts.drop i, hi ≤ c := by
    intro c member
    obtain ⟨j, inside, rfl⟩ := mem_iff_getElem.mp member
    rw [length_drop] at inside
    rw [getElem_drop]
    rcases eq_zero_or_pos j with rfl | later
    · exact high (by omega)
    · exact le_trans (high (by omega)) (le_of_lt (ascending.getElem_lt (by omega) (by omega)))
  have unread : (lo :: hi :: cuts.drop i).Pairwise (· ≤ ·) := by
    refine pairwise_cons.mpr ⟨forall_mem_cons.mpr ⟨ordered, ?_⟩, pairwise_cons.mpr ⟨after, ?_⟩⟩
    · exact fun c member => ordered.trans (after c member)
    · exact (ascending.sorted.sublist (drop_sublist _ _)).imp le_of_lt
  have state : Filtering (cuts.take i).reverse (lowCut cuts i) (lo :: hi :: cuts.drop i) := by
    refine ⟨pairwise_reverse.mpr (ascending.sorted.sublist (take_sublist _ _)), fun c member => ?_, unread, ?_⟩
    · exact ascending.positive c (mem_of_mem_take (mem_reverse.mp member))
    · cases i with
      | zero => exact .inl ⟨rfl, by simp⟩
      | succ k =>
        right
        refine ⟨(cuts.take k).reverse, ?_, forall_mem_cons.mpr ⟨low, fun u member => ?_⟩⟩
        · rw [lowCut_succ (by omega), take_add_one, getElem?_eq_getElem (by omega)]
          simp
        · exact low.trans ((pairwise_cons.mp unread).1 u member)
  obtain ⟨ascending', counts⟩ := filterCuts_spec state
  refine ⟨ascending', toggles_of_count ordered fun x => ?_⟩
  have split : cuts.countP (x < ·) = (cuts.take i).countP (x < ·) + (cuts.drop i).countP (x < ·) := by
    rw [← countP_append, take_append_drop]
  rw [insertSegment, counts x, countP_reverse, countP_cons, countP_cons]
  simp only [decide_eq_true_eq]
  congr 1
  omega

/-! ### Allocation -/

section
variable (cuts : List Nat)

/-- The segment before `cuts[i]` is empty. -/
def EmptyAt (i : Nat) : Prop := i ≤ cuts.length ∧ (cuts.length - i) % 2 = 0

/-- An aligned range of this size fits, as far as `ncclSpaceTryAlloc` looks. -/
def Fits (limit size align i : Nat) : Prop :=
  alignUp (lowCut cuts i) align + size ≤ highCut cuts limit i

/-- What a range does to the cuts. -/
def place (limit size align i : Nat) : List Nat :=
  let off := alignUp (lowCut cuts i) align
  if i = 0 ∨ off + size = highCut cuts limit i then insertSegment cuts i off (off + size)
  else cuts.set (i - 1) (off + size)

/-- The first empty segment that is large enough. -/
structure FirstFit (limit size align i : Nat) : Prop where
  empty : EmptyAt cuts i
  fits : Fits cuts limit size align i
  first : ∀ j < i, EmptyAt cuts j → ¬ Fits cuts limit size align j

end

theorem tryAllocFrom_cases (enough : cuts.length < i + 2 * fuel)
    (parity : i % 2 = cuts.length % 2) (first : ∀ j < i, EmptyAt cuts j → ¬ Fits cuts limit size align j) :
    (∃ k, FirstFit cuts limit size align k ∧ tryAllocFrom cuts limit size align fuel i =
        (some (alignUp (lowCut cuts k) align), place cuts limit size align k)) ∨
      ((∀ k, EmptyAt cuts k → ¬ Fits cuts limit size align k) ∧
        tryAllocFrom cuts limit size align fuel i = (none, cuts)) := by
  induction fuel generalizing i with
  | zero => exact .inr ⟨fun k empty => first k (by have := empty.1; omega) empty, rfl⟩
  | succ fuel ih =>
    unfold tryAllocFrom
    by_cases inside : i ≤ cuts.length
    · rw [if_pos inside]
      by_cases fits : Fits cuts limit size align i
      · left
        refine ⟨i, ⟨⟨inside, by omega⟩, fits, first⟩, ?_⟩
        rw [Fits] at fits
        simp [fits, place]
      · have next : ∀ j < i + 2, EmptyAt cuts j → ¬ Fits cuts limit size align j := by
          intro j early empty
          by_cases old : j < i
          · exact first j old empty
          · obtain rfl : j = i := by
              have := empty.1
              have := empty.2
              omega
            exact fits
        have rest := ih (show cuts.length < i + 2 + 2 * fuel by omega) (by omega) next
        rw [Fits] at fits
        simp only [fits, ↓reduceIte]
        exact rest
    · rw [if_neg inside]
      exact .inr ⟨fun k empty => first k (by have := empty.1; omega) empty, rfl⟩

theorem tryAlloc_cases (cuts : List Nat) (limit size align : Nat) :
    (∃ i, FirstFit cuts limit size align i ∧ ncclSpaceTryAlloc cuts limit size align =
        (some (alignUp (lowCut cuts i) align), place cuts limit size align i)) ∨
      ((∀ i, EmptyAt cuts i → ¬ Fits cuts limit size align i) ∧
        ncclSpaceTryAlloc cuts limit size align = (none, cuts)) := by
  refine tryAllocFrom_cases (by omega) (Nat.mod_mod _ _) fun j early empty => ?_
  have := empty.2
  omega

theorem highCut_le (inside : i < cuts.length) : highCut cuts limit i = cuts[i] := by
  rw [highCut, if_neg inside.ne]
  simp [inside]

/-- Where the cuts change: from the offset, or from the cut that is moved. -/
def placeStart (cuts : List Nat) (limit size align i : Nat) : Nat :=
  let off := alignUp (lowCut cuts i) align
  if i = 0 ∨ off + size = highCut cuts limit i then off else lowCut cuts i

theorem place_spec (ascending : Ascending cuts) (positive : 0 < align) (nonempty : 0 < size) (empty : EmptyAt cuts i)
    (fits : Fits cuts limit size align i) :
    Ascending (place cuts limit size align i) ∧ Toggles cuts (place cuts limit size align i)
      (placeStart cuts limit size align i) (alignUp (lowCut cuts i) align + size) := by
  have low := le_alignUp (lowCut cuts i) positive
  unfold place placeStart
  by_cases slow : i = 0 ∨ alignUp (lowCut cuts i) align + size = highCut cuts limit i
  · simp only [slow, ↓reduceIte]
    refine insertSegment_spec ascending empty.1 low le_self_add fun inside => ?_
    rwa [← highCut_le inside]
  · simp only [slow, ↓reduceIte]
    obtain ⟨later, strict⟩ := not_or.mp slow
    obtain ⟨k, rfl⟩ : ∃ k, i = k + 1 := ⟨i - 1, by omega⟩
    have inside := empty.1
    have below := ascending.lowCut_lt inside
    rw [lowCut_succ inside] at low strict ⊢
    rw [Nat.add_sub_cancel]
    constructor
    · refine ascending_set ascending (by omega) fun inside' => ?_
      rw [Fits, lowCut_succ inside, highCut_le inside'] at fits
      rw [highCut_le inside'] at strict
      omega
    · have moved := toggles_set (v := alignUp cuts[k] align + size) inside
      rwa [min_eq_left (by omega), max_eq_right (by omega)] at moved

/-- The range that is placed, and what is before it in its segment, was empty. -/
theorem not_covered_of_fits (ascending : Ascending cuts) (empty : EmptyAt cuts i)
    (fits : Fits cuts limit size align i) (after : lowCut cuts i ≤ x)
    (before : x < alignUp (lowCut cuts i) align + size) : ¬ Covered cuts x := by
  have between : Between cuts i x := by
    refine between_of_cuts ascending empty.1 after fun inside => ?_
    rw [Fits, highCut_le inside] at fits
    omega
  rw [between.covered_iff]
  have := empty.2
  omega

/-- An aligned range that is nowhere full lies in an empty segment, which then is
large enough. -/
theorem exists_fits (ascending : Ascending cuts) (positive : 0 < align) (nonempty : 0 < size) (divides : align ∣ offset)
    (inLimit : offset + size ≤ limit) (free : ∀ x, offset ≤ x → x < offset + size → ¬ Covered cuts x) :
    ∃ i, EmptyAt cuts i ∧ Fits cuts limit size align i ∧ alignUp (lowCut cuts i) align ≤ offset := by
  obtain ⟨i, bound, between⟩ := exists_between ascending offset
  have start := alignUp_le positive divides (between.low bound)
  have even : (cuts.length - i) % 2 = 0 := by
    have := free offset le_rfl (by omega)
    rw [between.covered_iff] at this
    omega
  refine ⟨i, ⟨bound, even⟩, ?_, start⟩
  rcases bound.lt_or_eq with inside | last
  · -- the cut that ends the segment begins a full one
    rw [Fits, highCut_le inside]
    by_contra short
    have cut := between.high inside
    refine free cuts[i] cut.le (by omega) ?_
    rw [(between_cut ascending inside).covered_iff]
    omega
  · rw [Fits, highCut, if_pos last]
    omega

/-! ### Release -/

theorem findFull_eq (between : Between cuts k offset) (inside : k < cuts.length) (order : i ≤ k)
    (parity : i % 2 = k % 2) (enough : k < i + 2 * fuel) : findFull cuts offset fuel i = k := by
  induction fuel generalizing i with
  | zero => omega
  | succ fuel ih =>
    unfold findFull
    by_cases here : i = k
    · subst here
      have high := between.high inside
      rw [if_neg (by simp [inside]; omega)]
    · have passed : cuts[i] ≤ offset := by
        apply between.below
        rw [mem_take_iff_getElem]
        exact ⟨i, by omega, rfl⟩
      rw [if_pos (by simp [show i < cuts.length by omega, passed]), ih (by omega) (by omega) (by omega)]

/-- A full range is taken out. -/
theorem free_spec (ascending : Ascending cuts) (nonempty : 0 < size)
    (full : ∀ x, offset ≤ x → x < offset + size → Covered cuts x) :
    (ncclSpaceFree cuts offset size).1 = true ∧ Ascending (ncclSpaceFree cuts offset size).2 ∧
      Toggles cuts (ncclSpaceFree cuts offset size).2 offset (offset + size) := by
  obtain ⟨k, bound, between⟩ := exists_between ascending offset
  have odd := between.covered_iff.mp (full offset le_rfl (by omega))
  have inside : k < cuts.length := by omega
  have low := between.low bound
  have high := between.high inside
  have reach : offset + size ≤ cuts[k] := by
    by_contra short
    have cut := full cuts[k] high.le (by omega)
    rw [(between_cut ascending inside).covered_iff] at cut
    omega
  have last : offset < cuts[cuts.length - 1] := by
    rcases Nat.lt_or_eq_of_le (show k ≤ cuts.length - 1 by omega) with earlier | same
    · exact high.trans (ascending.getElem_lt earlier (by omega))
    · simpa [same] using high
  have found : findFull cuts offset cuts.length (1 - cuts.length % 2) = k :=
    findFull_eq between inside (by omega) (by omega) (by omega)
  have some : ¬ (cuts.length = 0 ∨ cuts.getD (cuts.length - 1) 0 ≤ offset) := by
    rw [← getElem_eq_getD (h := show cuts.length - 1 < cuts.length by omega)]
    omega
  unfold ncclSpaceFree
  rw [if_neg some]
  simp only [found, getD_eq_getElem?_getD, getElem?_eq_getElem inside, Option.getD_some]
  rw [if_neg (by omega)]
  by_cases bottom : k ≠ 0 ∧ lowCut cuts k = offset ∧ offset + size ≠ cuts[k]
  · rw [if_pos bottom]
    obtain ⟨later, start, strict⟩ := bottom
    obtain ⟨j, rfl⟩ : ∃ j, k = j + 1 := ⟨k - 1, by omega⟩
    have before : j < cuts.length := by omega
    have below := ascending.lowCut_lt before
    rw [lowCut_succ before] at start
    rw [Nat.add_sub_cancel]
    refine ⟨rfl, ascending_set ascending (by omega) fun inside' => by omega, ?_⟩
    · have moved := toggles_set (v := offset + size) before
      rwa [start, min_eq_left (by omega), max_eq_right (by omega)] at moved
  rw [if_neg bottom]
  by_cases top : lowCut cuts k ≠ offset ∧ offset + size = cuts[k]
  · rw [if_pos top]
    obtain ⟨later, stop⟩ := top
    refine ⟨rfl, ascending_set ascending (by omega) fun inside' => ?_, ?_⟩
    · exact high.trans (ascending.getElem_lt (Nat.lt_succ_self k) inside')
    · have moved := toggles_set (v := offset) inside
      rwa [min_eq_right (by omega), max_eq_left (by omega), ← stop] at moved
  · rw [if_neg top]
    exact ⟨rfl, insertSegment_spec ascending bound low le_self_add fun _ => reach⟩

/-! ### The space and its client -/

/-- The space with the ranges that were handed out and not given back. -/
structure Space where
  cuts : List Nat
  live : List (Nat × Nat)
  deriving DecidableEq

inductive SpaceOp where
  | tryAlloc (limit size align : Nat)
  | free (offset size : Nat)

def InRange (range : Nat × Nat) (x : Nat) : Prop := range.1 ≤ x ∧ x < range.1 + range.2

def Apart (a b : Nat × Nat) : Prop := a.1 + a.2 ≤ b.1 ∨ b.1 + b.2 ≤ a.1

instance : Std.Symm Apart := ⟨fun _ _ => Or.symm⟩

namespace Space

def empty : Space := ⟨[], []⟩

section
variable (space : Space)

def apply : SpaceOp → Space
  | .tryAlloc limit size align =>
    match ncclSpaceTryAlloc space.cuts limit size align with
    | (some off, cuts) => ⟨cuts, (off, size) :: space.live⟩
    | (none, cuts) => ⟨cuts, space.live⟩
  | .free offset size =>
    match ncclSpaceFree space.cuts offset size with
    | (true, cuts) => ⟨cuts, space.live.erase (offset, size)⟩
    | (false, cuts) => ⟨cuts, space.live⟩

def run (ops : List SpaceOp) : Space := ops.foldl apply space

/-- What a client may ask for. -/
def Legal : SpaceOp → Prop
  | .tryAlloc _ size align => 0 < size ∧ ∃ k, align = 2 ^ k
  | .free offset size => (offset, size) ∈ space.live

/-- The full segments are the live ranges, which are apart. -/
structure Exact : Prop where
  ascending : Ascending space.cuts
  covers : ∀ x, Covered space.cuts x ↔ ∃ range ∈ space.live, InRange range x
  apart : space.live.Pairwise Apart
  nonempty : ∀ range ∈ space.live, 0 < range.2

/-- What a call must answer, and do to the space. -/
def Correct (op : SpaceOp) : Prop :=
  (match op with
    | .tryAlloc limit size align =>
      (∀ off, (ncclSpaceTryAlloc space.cuts limit size align).1 = some off →
        align ∣ off ∧ off + size ≤ limit ∧ (∀ range ∈ space.live, Apart (off, size) range) ∧
          ∀ less < off, align ∣ less → ∃ x, InRange (less, size) x ∧ Covered space.cuts x) ∧
      ((ncclSpaceTryAlloc space.cuts limit size align).1 = none →
        (ncclSpaceTryAlloc space.cuts limit size align).2 = space.cuts ∧
          ∀ off, align ∣ off → off + size ≤ limit → ∃ x, InRange (off, size) x ∧ Covered space.cuts x)
    | .free offset size => (ncclSpaceFree space.cuts offset size).1 = true) ∧
  Exact (space.apply op) ∧ ((space.apply op).live = [] → (space.apply op).cuts = [])

/-- The range begins where its segment begins, or the segment is the first, or
the range ends where it ends; and it ends within the limit. -/
def Tight : SpaceOp → Prop
  | .tryAlloc limit size align => ∀ i, FirstFit space.cuts limit size align i →
    alignUp (lowCut space.cuts i) align + size ≤ limit ∧
      (i = 0 ∨ align ∣ lowCut space.cuts i ∨
        alignUp (lowCut space.cuts i) align + size = highCut space.cuts limit i)
  | .free _ _ => True

end

variable {space : Space} {op : SpaceOp}

theorem exact_empty : Exact empty where
  ascending := ⟨List.Pairwise.nil, by simp [empty]⟩
  covers := by simp [empty, covered_nil]
  apart := List.Pairwise.nil
  nonempty := by simp [empty]

theorem Exact.cuts_eq_nil (exact : Exact space) (none : space.live = []) : space.cuts = [] := by
  refine eq_nil_of_not_covered exact.ascending fun x covered => ?_
  obtain ⟨range, member, -⟩ := (exact.covers x).mp covered
  rw [none] at member
  cases member

/-- A range that is nowhere full is apart from all live ones. -/
theorem Exact.apart_of_not_covered (exact : Exact space) (some : 0 < size)
    (free : ∀ x, InRange (offset, size) x → ¬ Covered space.cuts x) {range : Nat × Nat} (member : range ∈ space.live) :
    Apart (offset, size) range := by
  have positive := exact.nonempty range member
  by_contra meet
  simp only [Apart, not_or, not_le] at meet
  refine free (max offset range.1) ⟨by omega, by simp only; omega⟩ ((exact.covers _).mpr ⟨range, member, ?_, ?_⟩) <;>
    omega

theorem placeStart_eq (positive : 0 < align) (tight : i = 0 ∨ align ∣ lowCut cuts i ∨
    alignUp (lowCut cuts i) align + size = highCut cuts limit i) :
    placeStart cuts limit size align i = alignUp (lowCut cuts i) align := by
  unfold placeStart
  rcases tight with first | divides | last
  · rw [if_pos (.inl first)]
  · rw [alignUp_of_dvd positive divides, ite_self]
  · rw [if_pos (.inr last)]

/-- No aligned range lies before the one that is found. -/
theorem exists_covered_before (ascending : Ascending cuts) (positive : 0 < align) (some : 0 < size)
    (found : FirstFit cuts limit size align i) (inLimit : alignUp (lowCut cuts i) align + size ≤ limit)
    (before : less < alignUp (lowCut cuts i) align) (divides : align ∣ less) :
    ∃ x, InRange (less, size) x ∧ Covered cuts x := by
  by_contra none
  have inside : less + size ≤ limit := by omega
  obtain ⟨j, empty, fits, start⟩ := exists_fits ascending positive some divides inside
    fun x after before covered => none ⟨x, ⟨after, before⟩, covered⟩
  have later : i ≤ j := by
    by_contra early
    exact found.first j (by omega) empty fits
  have low := ascending.lowCut_mono later empty.1
  have order := alignUp_le positive (dvd_alignUp (lowCut cuts j) align) (low.trans (le_alignUp _ positive))
  omega

section
variable (exact : Exact space)
include exact

theorem Exact.correct_tryAlloc (some : 0 < size) (positive : 0 < align)
    (tight : space.Tight (.tryAlloc limit size align)) : space.Correct (.tryAlloc limit size align) := by
  rcases tryAlloc_cases space.cuts limit size align with ⟨i, found, result⟩ | ⟨never, result⟩
  · obtain ⟨inLimit, place⟩ := tight i found
    have start := placeStart_eq positive place
    obtain ⟨ascending, toggles⟩ := place_spec exact.ascending positive some found.empty found.fits
    rw [start] at toggles
    have low := le_alignUp (lowCut space.cuts i) positive
    have free : ∀ x, InRange (alignUp (lowCut space.cuts i) align, size) x → ¬ Covered space.cuts x := fun x inside =>
      not_covered_of_fits exact.ascending found.empty found.fits (low.trans inside.1) inside.2
    have apart : ∀ range ∈ space.live, Apart (alignUp (lowCut space.cuts i) align, size) range := fun range member =>
      exact.apart_of_not_covered some free member
    have applied : space.apply (.tryAlloc limit size align) =
        ⟨SpaceProofs.place space.cuts limit size align i,
          (alignUp (lowCut space.cuts i) align, size) :: space.live⟩ := by
      simp [apply, result]
    have exact' : Exact (space.apply (.tryAlloc limit size align)) := by
      rw [applied]
      refine ⟨ascending, fun x => ?_, pairwise_cons.mpr ⟨apart, exact.apart⟩, forall_mem_cons.mpr ⟨some, exact.nonempty⟩⟩
      rw [toggles.covered_of_empty (fun x after before => free x ⟨after, before⟩), exact.covers]
      simp only [mem_cons, exists_eq_or_imp]
      exact or_comm
    refine ⟨⟨fun off answer => ?_, fun answer => ?_⟩, exact', exact'.cuts_eq_nil⟩
    · rw [result] at answer
      obtain rfl := Option.some.inj answer
      exact ⟨dvd_alignUp _ _, inLimit, apart, fun less before divides =>
        exists_covered_before exact.ascending positive some found inLimit before divides⟩
    · rw [result] at answer
      cases answer
  · have applied : space.apply (.tryAlloc limit size align) = space := by
      simp [apply, result]
    refine ⟨⟨fun off answer => ?_, fun answer => ?_⟩, by rwa [applied], by rw [applied]; exact exact.cuts_eq_nil⟩
    · rw [result] at answer
      cases answer
    · rw [result]
      refine ⟨rfl, fun off divides inLimit => ?_⟩
      by_contra none
      obtain ⟨i, empty, fits, -⟩ := exists_fits exact.ascending positive some divides inLimit
        fun x after before covered => none ⟨x, ⟨after, before⟩, covered⟩
      exact never i empty fits

theorem Exact.correct_free (member : (offset, size) ∈ space.live) :
    space.Correct (.free offset size) := by
  have some := exact.nonempty _ member
  have full : ∀ x, offset ≤ x → x < offset + size → Covered space.cuts x := fun x after before =>
    (exact.covers x).mpr ⟨_, member, after, before⟩
  obtain ⟨success, ascending, toggles⟩ := free_spec exact.ascending some full
  have distinct : space.live.Nodup := by
    refine List.Pairwise.imp_of_mem ?_ exact.apart
    rintro a b memberA memberB apart rfl
    have := exact.nonempty a memberA
    rcases apart with before | before <;> omega
  have applied : space.apply (.free offset size) =
      ⟨(ncclSpaceFree space.cuts offset size).2, space.live.erase (offset, size)⟩ := by
    simp only [apply]
    split
    next same =>
      rw [same]
    next same =>
      rw [same] at success
      cases success
  have exact' : Exact (space.apply (.free offset size)) := by
    rw [applied]
    refine ⟨ascending, fun x => ?_, exact.apart.sublist erase_sublist, fun range old => ?_⟩
    · rw [toggles.covered_of_full full, exact.covers]
      simp only [distinct.mem_erase_iff]
      constructor
      · rintro ⟨⟨range, old, inside⟩, outside⟩
        refine ⟨range, ⟨?_, old⟩, inside⟩
        rintro rfl
        exact outside inside
      · rintro ⟨range, ⟨other, old⟩, inside⟩
        refine ⟨⟨range, old, inside⟩, fun both => ?_⟩
        rcases exact.apart.forall old member other with before | before
        · exact absurd inside.2 (Nat.not_lt.mpr (before.trans both.1))
        · exact absurd both.2 (Nat.not_lt.mpr (before.trans inside.1))
    · exact exact.nonempty range (mem_of_mem_erase old)
  exact ⟨success, exact', exact'.cuts_eq_nil⟩

/-- A gap before the range, or a range past the limit, is seen in the answer or in
the full segments. -/
theorem Exact.tight_tryAlloc (some : 0 < size) (positive : 0 < align)
    (correct : space.Correct (.tryAlloc limit size align)) : space.Tight (.tryAlloc limit size align) := by
  intro i found
  obtain ⟨⟨success, -⟩, exact', -⟩ := correct
  rcases tryAlloc_cases space.cuts limit size align with ⟨k, found', result⟩ | ⟨never, -⟩
  · obtain rfl : i = k := by
      rcases lt_trichotomy i k with less | same | more
      · exact absurd found.fits (found'.first i less found.empty)
      · exact same
      · exact absurd found'.fits (found.first k more found'.empty)
    refine ⟨(success _ (by rw [result])).2.1, ?_⟩
    by_contra loose
    simp only [not_or] at loose
    obtain ⟨later, gap, strict⟩ := loose
    have toggles := (place_spec exact.ascending positive some found.empty found.fits).2
    have low := le_alignUp (lowCut space.cuts i) positive
    have less : lowCut space.cuts i < alignUp (lowCut space.cuts i) align := by
      refine Nat.lt_of_le_of_ne low fun same => gap ?_
      rw [same]
      exact dvd_alignUp _ _
    -- the cut that was moved is full now, but in no live range
    have empty := not_covered_of_fits exact.ascending found.empty found.fits le_rfl (by omega)
    have start : placeStart space.cuts limit size align i = lowCut space.cuts i := if_neg (not_or.mpr ⟨later, strict⟩)
    have moved : Covered (space.apply (.tryAlloc limit size align)).cuts (lowCut space.cuts i) := by
      simp only [apply, result]
      rw [toggles, start]
      exact iff_of_false empty (not_not.mpr ⟨le_rfl, by omega⟩)
    obtain ⟨range, member, inside⟩ := (exact'.covers _).mp moved
    simp only [apply, result, mem_cons] at member
    rcases member with rfl | member
    · exact absurd inside.1 (Nat.not_le.mpr less)
    · exact empty ((exact.covers _).mpr ⟨range, member, inside⟩)
  · exact absurd found.fits (never i found.empty)

theorem Exact.correct_iff_tight (legal : space.Legal op) : space.Correct op ↔ space.Tight op := by
  cases op with
  | tryAlloc =>
    obtain ⟨some, k, rfl⟩ := legal
    exact ⟨exact.tight_tryAlloc some (Nat.two_pow_pos k), exact.correct_tryAlloc some (Nat.two_pow_pos k)⟩
  | free => exact iff_of_true (exact.correct_free legal) trivial

/-! ### Runs -/

/-- Every call of a run, with the space it is made on. -/
def Always (P : Space → SpaceOp → Prop) : Space → List SpaceOp → Prop
  | _, [] => True
  | space, op :: ops => P space op ∧ Always P (space.apply op) ops

theorem Exact.run_correct_iff (legal : Always Legal space ops) :
    Always Correct space ops ↔ Always Tight space ops := by
  induction ops generalizing space with
  | nil => exact Iff.rfl
  | cons op ops ih =>
    obtain ⟨allowed, legal⟩ := legal
    have here := exact.correct_iff_tight allowed
    constructor
    · rintro ⟨correct, rest⟩
      exact ⟨here.mp correct, (ih correct.2.1 legal).mp rest⟩
    · rintro ⟨tight, rest⟩
      have correct := here.mpr tight
      exact ⟨correct, (ih correct.2.1 legal).mpr rest⟩

end

/-- A legal run is correct if and only if every allocation is tight. -/
theorem space_run_correct_iff {ops : List SpaceOp} (legal : Always Legal empty ops) :
    Always Correct empty ops ↔ Always Tight empty ops :=
  exact_empty.run_correct_iff legal

theorem space_run_correct_iff_reuse : ∃ ops, ops = [.tryAlloc 64 16 16, .tryAlloc 64 16 8, .free 0 16] ∧
    Always Tight empty ops ∧ Always Correct empty ops := by
  have freed : (0, 16) ∈ ((empty.apply (.tryAlloc 64 16 16)).apply (.tryAlloc 64 16 8)).live := by decide
  refine ⟨_, rfl, ?tight,
    Iff.mpr (space_run_correct_iff ⟨⟨by decide, 4, rfl⟩, ⟨by decide, 3, rfl⟩, freed, trivial⟩) ?tight⟩
  refine ⟨fun i found => ?_, fun i found => ?_, trivial, trivial⟩
  · obtain rfl : i = 0 := Nat.le_zero.mp found.empty.1
    decide
  · obtain ⟨bound, even⟩ : i ≤ 1 ∧ (1 - i) % 2 = 0 := found.empty
    obtain rfl : i = 1 := by omega
    decide

/-- One byte, then an aligned range: what lies between stays full when both are
given back. And an inner segment is used without regard to the limit. -/
theorem space_gap_and_limit : ∃ ops ops', ops = [.tryAlloc 64 1 1, .tryAlloc 64 16 16, .free 16 16, .free 0 1] ∧
    ops' = [.tryAlloc 64 16 1, .tryAlloc 64 16 1, .free 0 16, .tryAlloc 8 16 1] ∧
    empty.run ops = ⟨[1, 16], []⟩ ∧ ¬ Always Correct empty ops ∧
    empty.run ops' = ⟨[32], [(0, 16), (16, 16)]⟩ ∧ ¬ Always Correct empty ops' := by
  refine ⟨_, _, rfl, rfl, by decide, ?_, by decide, ?_⟩
  · rintro ⟨-, -, -, ⟨-, -, emptied⟩, -⟩
    exact absurd (emptied (by decide)) (by decide)
  · rintro ⟨-, -, -, ⟨⟨success, -⟩, -⟩, -⟩
    exact absurd (success 0 (by decide)).2.1 (by decide)

/-! ### One granularity -/

/-- Ranges of whole granules, and one limit. -/
def Granular (limit granule : Nat) : SpaceOp → Prop
  | .tryAlloc limit' size align => limit' = limit ∧ align ∣ granule ∧ granule ∣ size
  | .free _ _ => True

/-- The live ranges of a run in granules. -/
def InGranules (limit granule : Nat) (space : Space) : Prop :=
  ∀ range ∈ space.live, granule ∣ range.1 ∧ granule ∣ range.2 ∧ range.1 + range.2 ≤ limit

section
variable (exact : Exact space) (inGranules : InGranules limit granule space)
include exact inGranules

/-- Every cut is an end of a live range. -/
theorem Exact.granule_cut (inside : i < space.cuts.length) : granule ∣ space.cuts[i] ∧ space.cuts[i] ≤ limit := by
  have change := exact.ascending.covered_cut inside
  by_cases covered : Covered space.cuts space.cuts[i]
  · obtain ⟨range, member, from_, before⟩ := (exact.covers _).mp covered
    obtain ⟨start, length, bound⟩ := inGranules range member
    have same : space.cuts[i] = range.1 := by
      by_contra other
      exact change.mp covered ((exact.covers _).mpr ⟨range, member, by omega, by omega⟩)
    rw [same]
    exact ⟨start, by omega⟩
  · have full : Covered space.cuts (space.cuts[i] - 1) := by
      by_contra empty
      exact covered (change.mpr empty)
    obtain ⟨range, member, from_, before⟩ := (exact.covers _).mp full
    obtain ⟨start, length, bound⟩ := inGranules range member
    have same : space.cuts[i] = range.1 + range.2 := by
      by_contra other
      exact covered ((exact.covers _).mpr ⟨range, member, by omega, by omega⟩)
    rw [same]
    exact ⟨Nat.dvd_add start length, bound⟩

theorem Exact.granule_lowCut (bound : i ≤ space.cuts.length) : granule ∣ lowCut space.cuts i := by
  cases i with
  | zero => exact Nat.dvd_zero granule
  | succ =>
    rw [lowCut_succ bound]
    exact (exact.granule_cut inGranules bound).1

theorem Exact.tight_of_granular (granular : Granular limit granule op) : space.Tight op := by
  cases op with
  | free => trivial
  | tryAlloc limit' size align =>
    obtain ⟨rfl, align, size⟩ := granular
    intro i found
    refine ⟨found.fits.trans ?_, .inr (.inl (align.trans (exact.granule_lowCut inGranules found.empty.1)))⟩
    rcases found.empty.1.lt_or_eq with inside | last
    · rw [highCut_le inside]
      exact (exact.granule_cut inGranules inside).2
    · rw [highCut, if_pos last]

theorem Exact.inGranules_apply
    (granular : Granular limit granule op) (legal : space.Legal op) : InGranules limit granule (space.apply op) := by
  have correct := (exact.correct_iff_tight legal).mpr (exact.tight_of_granular inGranules granular)
  intro range member
  cases op with
  | free =>
    simp only [apply] at member
    split at member
    · exact inGranules range (mem_of_mem_erase member)
    · exact inGranules range member
  | tryAlloc limit' size align =>
    obtain ⟨rfl, divides, whole⟩ := granular
    obtain ⟨-, k, rfl⟩ := legal
    rcases tryAlloc_cases space.cuts limit' size (2 ^ k) with ⟨i, found, result⟩ | ⟨-, result⟩
    · simp only [apply, result] at member
      rcases mem_cons.mp member with rfl | member
      · have low := exact.granule_lowCut inGranules found.empty.1
        refine ⟨?_, whole, (correct.1.1 _ (by rw [result])).2.1⟩
        rwa [alignUp_of_dvd (Nat.two_pow_pos k) (divides.trans low)]
      · exact inGranules range member
    · simp only [apply, result] at member
      exact inGranules range member

/-- Legal runs in granules are correct. -/
theorem Exact.granular_run (legal : Always Legal space ops) (granular : ∀ op ∈ ops, Granular limit granule op) :
    Always Correct space ops := by
  induction ops generalizing space with
  | nil => trivial
  | cons op ops ih =>
    obtain ⟨allowed, legal⟩ := legal
    have step := granular op mem_cons_self
    have correct := (exact.correct_iff_tight allowed).mpr (exact.tight_of_granular inGranules step)
    exact ⟨correct, ih correct.2.1 (exact.inGranules_apply inGranules step allowed) legal
      fun op member => granular op (mem_cons_of_mem _ member)⟩

end

theorem granular_run_reuse : Always Correct empty [.tryAlloc 64 32 8, .free 0 32] := by
  have nothing : InGranules 64 16 empty := nofun
  have freed : (0, 32) ∈ (empty.apply (.tryAlloc 64 32 8)).live := by decide
  exact exact_empty.granular_run nothing ⟨⟨by decide, 3, rfl⟩, freed, trivial⟩ (by simp [Granular])

end Space
end NcclCore.SpaceProofs
