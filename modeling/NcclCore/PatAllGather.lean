import Mathlib.Data.Nat.Bitwise
import Mathlib.NumberTheory.Padics.PadicVal.Basic

/-! The aggregated steps of the PAT all-gather. `nextAs` keeps one countdown for each bit
of the step, and no countdown reads another: a bit repeats one pattern of its own, and
the patterns of all bits together list the steps in an order that recurses on `asDim`. -/
namespace NcclCore.PatAllGather
open List Function

/-- The part of `PatAGAlgorithm` behind its aggregated steps. -/
structure PatAG where
  v : Nat
  bitCount : Nat → Int
  bitZeroStep : Nat → Nat

/-- `firstBitSet`: the index of the lowest one, `max` for zero. -/
def firstBitSet (i max : Nat) : Nat := if i = 0 then max else padicValNat 2 i

/-- One pass of the loop of `nextAs`. -/
def nextBit (asDim : Nat) (alg : PatAG) (d : Nat) : PatAG :=
  let p := 1 <<< d
  let bitCount := alg.bitCount d - 1
  if bitCount = 0 then
    let v := alg.v ^^^ p
    if v &&& p = 0 then
      let bitCount : Int := p + firstBitSet (alg.bitZeroStep d) asDim - 1
      let bitZeroStep := update alg.bitZeroStep d (alg.bitZeroStep d + 1)
      if bitCount = 0 then ⟨v ^^^ p, update alg.bitCount d p, bitZeroStep⟩
      else ⟨v, update alg.bitCount d bitCount, bitZeroStep⟩
    else { alg with v, bitCount := update alg.bitCount d p }
  else { alg with bitCount := update alg.bitCount d bitCount }

/-- `nextAs`, which returns the new `v`. -/
def nextAs (asDim : Nat) (alg : PatAG) : PatAG := (range asDim).foldl (nextBit asDim) alg

/-- What `reset` stores before it calls `nextAs`. -/
def clear (asDim : Nat) (alg : PatAG) : PatAG where
  v := 0
  bitCount i := if i < asDim then asDim - i else alg.bitCount i
  bitZeroStep i := if i < asDim then 1 else alg.bitZeroStep i

def reset (asDim : Nat) (alg : PatAG) : PatAG := nextAs asDim (clear asDim alg)

/-- The values of `k` calls. -/
def returned (asDim : Nat) : Nat → PatAG → List Nat
  | 0, _ => []
  | k + 1, alg => (nextAs asDim alg).v :: returned asDim k (nextAs asDim alg)

/-- The first `k + 1` steps: `reset` makes the first call. -/
def steps (asDim : Nat) (alg : PatAG) (k : Nat) : List Nat :=
  (reset asDim alg).v :: returned asDim k (reset asDim alg)

/-- One bit with its counters. -/
abbrev Bit := Bool × Int × Nat

def bit (alg : PatAG) (d : Nat) : Bit := (alg.v.testBit d, alg.bitCount d, alg.bitZeroStep d)

/-- What a call does to the bit of weight `p`. -/
def stepBit (asDim p : Nat) : Bit → Bit
  | (one, count, zeroStep) =>
    if count - 1 = 0 then
      if one then
        let count : Int := p + firstBitSet zeroStep asDim - 1
        if count = 0 then (true, p, zeroStep + 1) else (false, count, zeroStep + 1)
      else (true, p, zeroStep)
    else (one, count - 1, zeroStep)

theorem nextBit_bit (asDim : Nat) (alg : PatAG) (d i : Nat) :
    bit (nextBit asDim alg d) i = if i = d then stepBit asDim (2 ^ d) (bit alg d) else bit alg i := by
  have masked (v : Nat) : v &&& 2 ^ d = 0 ↔ v.testBit d = false := by
    rw [Nat.and_two_pow]
    cases v.testBit d <;> simp
  simp only [nextBit, stepBit, bit, Nat.one_shiftLeft, masked]
  by_cases same : i = d
  · subst same
    by_cases one : alg.v.testBit i <;> split_ifs <;> simp_all
  · have other : (2 ^ d).testBit i = false := Nat.testBit_two_pow_of_ne (Ne.symm same)
    split_ifs <;> simp [same, other]

theorem loop_bit (asDim : Nat) (alg : PatAG) (k i : Nat) : bit ((range k).foldl (nextBit asDim) alg) i =
    (if i < k then stepBit asDim (2 ^ i) else id) (bit alg i) := by
  induction k generalizing i with
  | zero => rfl
  | succ k ih =>
    rw [range_succ, foldl_append, foldl_cons, foldl_nil, nextBit_bit, ih, ih, if_neg (lt_irrefl k)]
    split_ifs with same <;> first | rfl | omega | simp [same]

section
variable {asDim p m : Nat} {f : Bit → Bit}

/-- A bit that steps by `f` takes these values and ends in `state'`. -/
def Emits (f : Bit → Bit) (state : Bit) : List Bool → Bit → Prop
  | [], state' => state = state'
  | value :: values, state' => (f state).1 = value ∧ Emits f (f state) values state'

theorem Emits.append (first : Emits f state values middle) (second : Emits f middle values' state') :
    Emits f state (values ++ values') state' := by
  induction values generalizing state with
  | nil => exact first ▸ second
  | cons value values ih => exact ⟨first.1, ih first.2⟩

/-- The values of `nextAs`, given bit by bit. -/
theorem returned_eq (emits : ∀ d, ∃ state',
    Emits (if d < asDim then stepBit asDim (2 ^ d) else id) (bit alg d) (list.map (·.testBit d)) state') :
    returned asDim list.length alg = list := by
  induction list generalizing alg with
  | nil => rfl
  | cons value list ih =>
    have steps (d : Nat) : bit (nextAs asDim alg) d = _ := loop_bit asDim alg asDim d
    simp only [map_cons, Emits, ← steps] at emits
    have first : (nextAs asDim alg).v = value := Nat.eq_of_testBit_eq fun d => (emits d).choose_spec.1
    rw [length_cons, returned, first, ih fun d => ⟨_, (emits d).choose_spec.2⟩]

theorem Emits.idle (k : Nat) (is : state.1 = value) : Emits id state (replicate k value) state := by
  induction k with
  | zero => rfl
  | succ k ih => exact ⟨is, ih⟩

theorem Emits.wait (one : Bool) (k c z : Nat) :
    Emits (stepBit asDim p) (one, (c + 1 + k : Int), z) (replicate k one) (one, (c + 1 : Int), z) := by
  induction k with
  | zero => simp [Emits]
  | succ k ih =>
    have step : stepBit asDim p (one, (c + 1 + (k + 1 : Nat) : Int), z) = (one, (c + 1 + k : Int), z) := by
      simp only [stepBit]
      rw [if_neg (by omega), Nat.cast_succ, ← add_assoc, add_sub_cancel_right]
    rw [replicate_succ, Emits, step]
    exact ⟨rfl, ih⟩

/-- A run of ones, as long as the weight. -/
theorem Emits.ones (asDim k z : Nat) :
    Emits (stepBit asDim (k + 1)) (false, 1, z) (replicate (k + 1) true) (true, 1, z) :=
  ⟨rfl, by simpa [stepBit, add_comm] using Emits.wait true k 0 z⟩

/-- A run of zeros, which the trailing zeros of the zero step make longer. -/
theorem Emits.zeros (rest : Emits (stepBit asDim (k + 1)) (false, (m + 1 : Int), z + 1) (value :: values) state')
    (trailing : firstBitSet z asDim = m) :
    Emits (stepBit asDim (k + 1)) (true, 1, z) (replicate k false ++ value :: values) state' := by
  cases k with
  | zero =>
    -- a weight of one has no zeros of its own: both states step alike
    have same : stepBit asDim 1 (true, 1, z) = stepBit asDim 1 (false, (m + 1 : Int), z + 1) := by
      simp [stepBit, trailing]
    rw [replicate_zero, nil_append, Emits, zero_add, same]
    exact rest
  | succ k =>
    have step : stepBit asDim (k + 1 + 1) (true, 1, z) = (false, (m + 1 + k : Int), z + 1) := by
      have positive : (m + 1 + k : Int) ≠ 0 := by omega
      have count : (k + 1 + 1 + m - 1 : Int) = m + 1 + k := by ring
      simp [stepBit, trailing, count, positive]
    rw [replicate_succ, cons_append, Emits, step]
    exact ⟨rfl, .append (.wait false k m _) rest⟩

end

/-- The values of a bit of weight `p` that starts with `m` zeros. -/
def column (p : Nat) : Nat → List Bool
  | 0 => replicate p true
  | m + 1 => [false] ++ column p m ++ (replicate (p - 1) false ++ column p m)

theorem firstBitSet_odd (asDim m q : Nat) : firstBitSet (2 ^ m * (2 * q + 1)) asDim = m := by
  have odd : ¬2 ∣ 2 * q + 1 := by omega
  rw [firstBitSet, if_neg (by positivity), padicValNat.mul (by positivity) (by positivity), padicValNat.prime_pow,
    padicValNat.eq_zero_of_not_dvd odd, add_zero]

theorem emits_column (asDim k m q : Nat) :
    Emits (stepBit asDim (k + 1)) (false, (m + 1 : Int), 2 ^ m * q + 1) (column (k + 1) m)
      (true, 1, 2 ^ m * (q + 1)) := by
  induction m generalizing q with
  | zero => simpa [column] using Emits.ones asDim k (q + 1)
  | succ m ih =>
    have first := ih (2 * q)
    have second := ih (2 * q + 1)
    have nonempty : column (k + 1) m ≠ [] := by cases m <;> simp [column]
    obtain ⟨value, values, is⟩ := exists_cons_of_ne_nil nonempty
    rw [column, show 2 ^ (m + 1) * q = 2 ^ m * (2 * q) by ring,
      show 2 ^ (m + 1) * (q + 1) = 2 ^ m * (2 * q + 1 + 1) by ring]
    rw [is] at second
    refine .append (.append (.wait false 1 m _) first) ?_
    rw [is]
    exact .zeros second (firstBitSet_odd asDim m q)

/-- A bit from `reset` on: its column, the zeros of the last run, and the value after them. -/
theorem emits_pattern (asDim d m : Nat) : ∃ state', Emits (stepBit asDim (2 ^ d)) (false, (m + 1 : Int), 2 ^ m * 0 + 1)
    (column (2 ^ d) m ++ (replicate (2 ^ d - 1) false ++ [decide (m = 0)])) state' := by
  have again : (stepBit asDim (2 ^ d) (false, (m + 1 : Int), 2 ^ m * 1 + 1)).1 = decide (m = 0) := by
    by_cases zero : m = 0 <;> simp [stepBit, zero]
  obtain ⟨k, weight⟩ := Nat.exists_eq_succ_of_ne_zero (Nat.two_pow_pos d).ne'
  rw [weight] at again ⊢
  exact ⟨_, .append (emits_column asDim k m 0) (.zeros ⟨again, rfl⟩ (firstBitSet_odd asDim m 0))⟩

/-- The order of the steps: the highest bit alone, then with every step below it, then these without it. -/
def order : Nat → List Nat
  | 0 => []
  | n + 1 => 2 ^ n :: (order n).map (2 ^ n + ·) ++ order n

theorem order_perm (n : Nat) : order n ~ range' 1 (2 ^ n - 1) := by
  induction n with
  | zero => rfl
  | succ n ih =>
    have halves : range' 1 (2 ^ (n + 1) - 1) =
        range' 1 (2 ^ n - 1) ++ 2 ^ n :: (range' 1 (2 ^ n - 1)).map (2 ^ n + ·) := by
      have positive := Nat.two_pow_pos n
      rw [map_add_range', ← range'_succ, show 2 ^ (n + 1) - 1 = 2 ^ n - 1 + (2 ^ n - 1 + 1) by omega, ← range'_append_1,
        show 1 + (2 ^ n - 1) = 2 ^ n by omega]
    rw [halves, order, cons_append]
    exact .trans (.cons _ (.trans (.append (ih.map _) ih) perm_append_comm)) perm_middle.symm

theorem mem_order : x ∈ order n ↔ 0 < x ∧ x < 2 ^ n := by
  have positive := Nat.two_pow_pos n
  rw [(order_perm n).mem_iff, mem_range'_1]
  omega

theorem length_order (n : Nat) : (order n).length = 2 ^ n - 1 := by
  rw [(order_perm n).length_eq, length_range']

theorem order_column (d m : Nat) :
    (order (d + m + 1)).map (·.testBit d) = column (2 ^ d) m ++ replicate (2 ^ d - 1) false := by
  induction m with
  | zero =>
    have low : ∀ x ∈ order d, x.testBit d = false := fun x member => Nat.testBit_lt_two_pow (mem_order.mp member).2
    have high : ∀ x ∈ order d, (2 ^ d + x).testBit d = true := fun x member => by
      rw [Nat.testBit_two_pow_add_eq, low x member, Bool.not_false]
    have ones := map_congr_left high
    have zeros := map_congr_left low
    rw [map_const', length_order] at ones zeros
    rw [add_zero, order, map_append, map_cons, map_map, zeros, column]
    simp only [comp_def, ones, Nat.testBit_two_pow_self, ← replicate_succ]
    rw [Nat.sub_add_cancel (Nat.two_pow_pos d)]
  | succ m ih =>
    have below : d < d + m + 1 := by omega
    have inner (x : Nat) : (2 ^ (d + m + 1) + x).testBit d = x.testBit d := Nat.testBit_two_pow_add_gt below x
    simp [← add_assoc, order.eq_2 (d + m + 1), column, ih, inner, comp_def, below.ne']

theorem order_last (n : Nat) : (order (n + 1)).getLast? = some 1 := by
  induction n with
  | zero => rfl
  | succ n ih => rw [order, getLast?_append, ih, Option.some_or]

/-- Clearing the lowest one of a step gives an earlier one. -/
theorem order_cleared (is : (order n)[i]? = some x) : x &&& (x - 1) = 0 ∨ x &&& (x - 1) ∈ (order n).take i := by
  induction n generalizing i x with
  | zero => simp [order] at is
  | succ n ih =>
    cases i with
    | zero =>
      obtain rfl := Option.some.inj is
      exact .inl (by rw [Nat.and_two_pow_sub_one_eq_mod, Nat.mod_self])
    | succ i =>
      rw [order, cons_append, getElem?_cons_succ] at is
      rw [order, cons_append, take_succ_cons, take_append]
      by_cases upper : i < ((order n).map (2 ^ n + ·)).length
      · rw [getElem?_append_left upper, getElem?_map] at is
        obtain ⟨t, inner, rfl⟩ := Option.map_eq_some_iff.mp is
        obtain ⟨positive, small⟩ := mem_order.mp (mem_of_getElem? inner)
        have join (y : Nat) (small : y < 2 ^ n) : 2 ^ n + y = 2 ^ n ||| y := by
          simpa using Nat.two_pow_add_eq_or_of_lt small 1
        have cleared : (2 ^ n + t) &&& (2 ^ n + t - 1) = 2 ^ n + (t &&& (t - 1)) := by
          rw [Nat.add_sub_assoc positive, join t small, join (t - 1) (by omega), ← Nat.or_and_distrib_left,
            join _ (Nat.and_lt_two_pow _ (by omega))]
        rw [cleared]
        rcases ih inner with zero | earlier
        · simp [zero]
        · rw [← map_take]
          exact .inr (mem_cons_of_mem _ (mem_append_left _ (mem_map_of_mem earlier)))
      · rw [getElem?_append_right (not_lt.mp upper)] at is
        exact (ih is).imp_right fun earlier => mem_cons_of_mem _ (mem_append_right _ earlier)

theorem steps_eq (n : Nat) (alg : PatAG) : steps (n + 1) alg (2 ^ (n + 1) - 1) = order (n + 1) ++ [2 ^ n] := by
  have count : (order (n + 1) ++ [2 ^ n]).length = 2 ^ (n + 1) - 1 + 1 := by
    rw [length_append, length_order, length_singleton]
  change returned (n + 1) (2 ^ (n + 1) - 1 + 1) (clear (n + 1) alg) = _
  rw [← count]
  refine returned_eq fun d => ?_
  by_cases inside : d < n + 1
  · obtain ⟨m, rfl⟩ := Nat.exists_eq_add_of_le (Nat.le_of_lt_succ inside)
    have start : bit (clear (d + m + 1) alg) d = (false, (m + 1 : Int), 2 ^ m * 0 + 1) := by
      simp only [bit, clear, if_pos inside, Nat.zero_testBit, mul_zero]
      congr 2
      omega
    rw [if_pos inside, start, map_append, order_column, append_assoc]
    simpa [Nat.testBit_two_pow] using emits_pattern (d + m + 1) d m
  · have small : ∀ x ∈ order (n + 1) ++ [2 ^ n], x.testBit d = false := by
      intro x member
      have bound : x < 2 ^ (n + 1) := by
        rcases mem_append.mp member with inner | top
        · exact (mem_order.mp inner).2
        · rw [mem_singleton.mp top]
          exact Nat.pow_lt_pow_succ one_lt_two
      exact Nat.testBit_lt_two_pow (bound.trans_le (Nat.pow_le_pow_right two_pos (not_lt.mp inside)))
    rw [if_neg inside, map_congr_left small, map_const']
    exact ⟨_, .idle _ (Nat.zero_testBit d)⟩

/-- The aggregated steps come in an order in which each can be forwarded from an earlier one. -/
theorem nextAs_enumerates (n : Nat) (alg : PatAG) :
    let all := steps (n + 1) alg (2 ^ (n + 1) - 1)
    let first := all.take (2 ^ (n + 1) - 1)
    first ~ range' 1 (2 ^ (n + 1) - 1) ∧ first.head? = some (2 ^ n) ∧ first.getLast? = some 1 ∧
      all[2 ^ (n + 1) - 1]? = some (2 ^ n) ∧
      ∀ i s, first[i]? = some s → s &&& (s - 1) = 0 ∨ s &&& (s - 1) ∈ first.take i := by
  intro all first
  have is : all = order (n + 1) ++ [2 ^ n] := steps_eq n alg
  have firstIs : first = order (n + 1) := by
    rw [show first = all.take _ from rfl, is, take_left' (length_order _)]
  refine ⟨firstIs ▸ order_perm _, firstIs ▸ rfl, ?_, ?_, fun i s found => ?_⟩
  · rw [firstIs, order_last]
  · rw [is, getElem?_append_right (length_order _).le, length_order, Nat.sub_self]
    rfl
  · rw [firstIs] at found ⊢
    exact order_cleared found

end NcclCore.PatAllGather
