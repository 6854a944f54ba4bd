import Mathlib.Analysis.Complex.ExponentialBounds
import Mathlib.Data.List.DropRight
import Technosphere.Exponent
import Technosphere.FloatingPoint

/-!
# The series in double precision

The same program with every operation rounded, and a reduction that adds the
local results in an order of its own. The errors are counted by the roundings
that a term passes: those of its factorial, of the division, of the loop of its
rank and of the reduction.
-/

namespace Exponent

namespace Rounded

open FloatingPoint RelativeError

abbrev Double := Number binary64

def zero : Double := ⟨0, ⟨0, 0, by decide, by simp⟩, .inl rfl⟩

def one : Double := ⟨1, ⟨1, 0, by decide, by simp⟩, by decide +kernel⟩

/-- `fact`, or `none` when its calls nest deeper than `depth`. -/
def fact : Nat → Double → Option Double
  | 0, _ => none
  | depth + 1, n =>
    if n.value = 0 then some one
    else do
      let previous ← n.sub one
      n.mul (← fact depth previous)

/-- One pass of the loop. -/
def addTerm (depth : Nat) (localResult : Double) (i : Nat) : Option Double := do
  let term ← one.div (← fact depth (← Number.round binary64 i))
  localResult.add term

def localResult (depth N numProcs rank : Nat) : Option Double :=
  (indices N numProcs rank).foldlM (addTerm depth) zero

/-- `MPI_Reduce` with `MPI_SUM`, as in exact arithmetic but for the rounding of
each sum. -/
inductive Reduce (results : Nat → Option Double) : Finset Nat → Double → Prop where
  | rank {r v} : results r = some v → Reduce results {r} v
  | add {group group' v w sum} : Disjoint group group' → Reduce results group v →
      Reduce results group' w → v.add w = some sum → Reduce results (group ∪ group') sum

/-- Six significant digits of a number between `1` and `10`, without zeros at
the end, as a stream shows it. -/
def shown (x : ℚ) : Option (List Char) :=
  if 1 ≤ x ∧ roundEven (x * 10 ^ 5) < 10 ^ 6 then
    match Nat.toDigits 10 (roundEven (x * 10 ^ 5)).toNat with
    | [] => none
    | digit :: fraction =>
      let fraction := fraction.rdropWhile (· = '0')
      some (if fraction = [] then [digit] else digit :: '.' :: fraction)
  else none

example : shown (5 / 2) = some ['2', '.', '5'] := by decide +kernel

abbrev u : Roundoff ℚ := binary64.roundoff

theorem few_roundings {n : Nat} (h : n ≤ 2 ^ 52) : 2 * (n * u.val) ≤ 1 := by
  have bound : (n : ℚ) ≤ 2 ^ 52 := by exact_mod_cast h
  have roundoff : u.val = 1 / 2 ^ 53 := rfl
  rw [roundoff]
  linarith

/-! ## A term -/

theorem range_le : (2 : ℚ) ^ binary64.minExponent ≤ 1 / 2 ^ 1021 := by decide +kernel

theorem lt_range : (2 : ℚ) ^ 1021 < 2 ^ (binary64.maxExponent - 1) := by decide +kernel

/-- What is neither too small nor too large is rounded once. -/
theorem exists_round {x : ℚ} (low : 1 / 2 ^ 1021 ≤ x) (high : x ≤ 2 ^ 1021) :
    ∃ v : Double, Number.round binary64 x = some v ∧ Near u 1 x v.value := by
  have positive : 0 < x := lt_of_lt_of_le (by positivity) low
  exact Number.exists_round positive.le (.inr (range_le.trans low)) (high.trans_lt lt_range)

theorem double_factorial_le {i : Nat} (small : i < 171) : 2 * (i.factorial : ℚ) ≤ 2 ^ 1021 := by
  have largest : 2 * Nat.factorial 170 ≤ 2 ^ 1021 := by decide +kernel
  exact_mod_cast (Nat.mul_le_mul_left 2 (Nat.factorial_le (Nat.le_of_lt_succ small))).trans largest

theorem round_nat {i : Nat} (small : i < 171) :
    ∃ n : Double, Number.round binary64 i = some n ∧ n.value = i :=
  Number.round_natCast (small.trans (by decide)) (by decide) (by decide)

/-- The factorial takes one rounding for each factor. -/
theorem fact_near {depth i : Nat} (deep : i < depth) (small : i < 171) {n : Double}
    (value : n.value = i) :
    ∃ v, fact depth n = some v ∧ Near u i (i.factorial : ℚ) v.value := by
  induction i generalizing depth n with
  | zero =>
      obtain ⟨depth, rfl⟩ := Nat.exists_eq_succ_of_ne_zero (Nat.ne_zero_of_lt deep)
      have first : n.value = 0 := by simpa using value
      exact ⟨one, if_pos first, by simpa [one] using Near.refl (zero_le_one (α := ℚ))⟩
  | succ i ih =>
      obtain ⟨depth, rfl⟩ := Nat.exists_eq_succ_of_ne_zero (Nat.ne_zero_of_lt deep)
      obtain ⟨k, rounded, previous⟩ := round_nat (Nat.lt_of_succ_lt small)
      have nonzero : n.value ≠ 0 := value ▸ Nat.cast_ne_zero.mpr i.succ_ne_zero
      have sub : n.sub one = some k := by
        rw [← rounded, Number.sub, value]
        simp [one]
      obtain ⟨v, called, near⟩ :=
        ih (Nat.lt_of_succ_lt_succ deep) (Nat.lt_of_succ_lt small) previous
      have exact_product : n.value * i.factorial = ((i + 1).factorial : ℚ) := by
        rw [value, Nat.factorial_succ, Nat.cast_mul]
      have positive : 0 < n.value := value ▸ Nat.cast_pos.mpr i.succ_pos
      have product : Near u i ((i + 1).factorial : ℚ) (n.value * v.value) := by
        have refl : Near u 0 n.value n.value := .refl positive.le
        simpa [exact_product] using refl.mul near positive.le (Nat.cast_nonneg _)
      have least : 1 ≤ ((i + 1).factorial : ℚ) := by exact_mod_cast Nat.factorial_pos _
      have few : 2 * (i * u.val) ≤ 1 := few_roundings (by omega)
      have low := product.symm.le_two_mul (product.nonneg (Nat.cast_nonneg _)) few
      have high := product.le_two_mul (Nat.cast_nonneg _) few
      have half : 1 / 2 ≤ n.value * v.value := by linarith
      obtain ⟨w, mul, last⟩ := exists_round (le_trans (by decide +kernel) half)
        (high.trans (double_factorial_le small))
      refine ⟨w, ?_, product.trans last⟩
      rw [fact, if_neg nonzero, sub]
      simp [called, Number.mul, mul]

/-- The quotient takes one more. -/
theorem term_near {depth i : Nat} (deep : i < depth) (small : i < 171) :
    ∃ n v term, Number.round binary64 i = some n ∧ fact depth n = some v ∧
      one.div v = some term ∧ Near u (i + 1) (1 / i.factorial : ℚ) term.value := by
  obtain ⟨n, rounded, value⟩ := round_nat small
  obtain ⟨v, called, near⟩ := fact_near deep small value
  have positive : (0 : ℚ) < i.factorial := Nat.cast_pos.mpr i.factorial_pos
  have least : (1 : ℚ) ≤ i.factorial := by exact_mod_cast i.factorial_pos
  have few : 2 * (i * u.val) ≤ 1 := few_roundings (by omega)
  have quotient : Near u i (1 / i.factorial : ℚ) (1 / v.value) := by
    simpa using (Near.refl (n := 0) zero_le_one).div near zero_le_one positive
  have below : 1 / v.value ≤ 2 := by
    have bound := quotient.le_two_mul (one_div_nonneg.mpr positive.le) few
    have unit : (1 : ℚ) / i.factorial ≤ 1 := (div_le_one positive).mpr least
    linarith
  have above : 1 / 2 ^ 1021 ≤ 1 / v.value :=
    one_div_le_one_div_of_le (near.pos positive)
      ((near.le_two_mul positive.le few).trans (double_factorial_le small))
  obtain ⟨term, division, last⟩ := exists_round above (below.trans (by decide +kernel))
  refine ⟨n, v, term, rounded, called, ?_, quotient.trans last⟩
  rw [Number.div, if_neg (near.pos positive).ne']
  exact division

/-! ## A rank -/

/-- Parts of the series are added with one rounding. -/
theorem add_near {n : Nat} {s s' : ℚ} {v w : Double} (near : Near u n s v.value)
    (near' : Near u n s' w.value) (nonneg : 0 ≤ s) (nonneg' : 0 ≤ s') (few : n ≤ 2 ^ 52)
    (total : s + s' ≤ 3) :
    ∃ sum, v.add w = some sum ∧ Near u (n + 1) (s + s') sum.value := by
  have sum : Near u n (s + s') (v.value + w.value) := near.add near'
  have most := sum.le_two_mul (add_nonneg nonneg nonneg') (few_roundings few)
  have high : v.value + w.value ≤ 2 ^ 1021 :=
    le_trans (by linarith : v.value + w.value ≤ 6) (by decide +kernel)
  obtain ⟨x, added, once⟩ := Number.exists_add (near.nonneg nonneg) (near'.nonneg nonneg')
    (high.trans_lt lt_range)
  exact ⟨x, added, sum.trans once⟩

/-- The sum of the loop passes one rounding more with each term. -/
theorem foldlM_near {depth N : Nat} (deep : N ≤ depth) (small : N ≤ 171) {l : List Nat}
    (inside : ∀ i ∈ l, i < N) {n : Nat} (bound : N ≤ n) (few : n + l.length ≤ 2 ^ 52) {s : ℚ}
    {acc : Double} (near : Near u n s acc.value) (nonneg : 0 ≤ s)
    (total : s + (l.map fun i => 1 / (i.factorial : ℚ)).sum ≤ 3) :
    ∃ v, l.foldlM (addTerm depth) acc = some v ∧
      Near u (n + l.length) (s + (l.map fun i => 1 / (i.factorial : ℚ)).sum) v.value := by
  induction l generalizing n s acc with
  | nil => exact ⟨acc, rfl, by simpa using near⟩
  | cons i l ih =>
      have lt : i < N := inside i List.mem_cons_self
      obtain ⟨k, v, term, rounded, called, division, last⟩ :=
        term_near (lt.trans_le deep) (lt.trans_le small)
      have part : (0 : ℚ) ≤ 1 / i.factorial := one_div_nonneg.mpr (Nat.cast_nonneg _)
      have rest : 0 ≤ (l.map fun i => 1 / (i.factorial : ℚ)).sum :=
        List.sum_nonneg fun x mem => by
          obtain ⟨j, _, rfl⟩ := List.mem_map.mp mem
          exact one_div_nonneg.mpr (Nat.cast_nonneg _)
      rw [List.map_cons, List.sum_cons, ← add_assoc] at total ⊢
      rw [List.length_cons] at few
      obtain ⟨acc', added, sum⟩ := add_near near (last.mono part (by omega)) nonneg part (by omega)
        (by linarith)
      obtain ⟨w, folded, whole⟩ := ih (fun j mem => inside j (List.mem_cons_of_mem _ mem))
        (bound.trans n.le_succ) (by omega) sum (add_nonneg nonneg part) total
      refine ⟨w, ?_, ?_⟩
      · have pass : addTerm depth acc i = some acc' := by
          rw [addTerm]
          simp [rounded, called, division, added]
        rw [List.foldlM_cons, pass]
        exact folded
      · rwa [List.length_cons, ← Nat.add_assoc, Nat.add_right_comm]

theorem series_le_exp (N : Nat) :
    ((∑ i ∈ Finset.range N, 1 / (i.factorial : ℚ) : ℚ) : ℝ) ≤ Real.exp 1 := by
  have partial_sum := Real.sum_le_exp_of_nonneg zero_le_one N
  simpa using partial_sum

theorem abs_series_sub_le {N : Nat} (terms : 0 < N) :
    |((∑ i ∈ Finset.range N, 1 / (i.factorial : ℚ) : ℚ) : ℝ) - Real.exp 1| ≤
      (N + 1) / (N.factorial * N) := by
  have tail := Real.exp_bound' zero_le_one le_rfl terms
  simp only [one_pow, one_mul] at tail
  rw [abs_sub_comm, abs_of_nonneg (sub_nonneg.mpr (series_le_exp N))]
  push_cast
  linarith

theorem series_le_three (N : Nat) : ∑ i ∈ Finset.range N, 1 / (i.factorial : ℚ) ≤ 3 := by
  have bound : ((∑ i ∈ Finset.range N, 1 / (i.factorial : ℚ) : ℚ) : ℝ) ≤ (3 : ℚ) := by
    refine (series_le_exp N).trans (Real.exp_one_lt_d9.le.trans ?_)
    norm_num
  exact_mod_cast bound

theorem share_nonneg (N numProcs rank : Nat) : 0 ≤ share N numProcs rank :=
  List.sum_nonneg fun x mem => by
    obtain ⟨j, _, rfl⟩ := List.mem_map.mp mem
    exact one_div_nonneg.mpr (Nat.cast_nonneg _)

theorem sum_share_le {N numProcs : Nat} (h : 0 < numProcs) {group : Finset Nat}
    (inside : group ⊆ Finset.range numProcs) : ∑ rank ∈ group, share N numProcs rank ≤ 3 := by
  refine (Finset.sum_le_sum_of_subset_of_nonneg inside
    fun rank _ _ => share_nonneg N numProcs rank).trans ?_
  rw [sum_share h]
  exact series_le_three N

theorem localResult_near {depth N numProcs rank : Nat} (deep : N ≤ depth) (small : N ≤ 171)
    (h : rank < numProcs) : ∃ v, localResult depth N numProcs rank = some v ∧
      Near u (2 * N) (share N numProcs rank) v.value := by
  have procs : 0 < numProcs := Nat.zero_lt_of_lt h
  have inside : ∀ i ∈ indices N numProcs rank, i < N := fun i mem =>
    (mem_indices_iff procs).mp ⟨rank, h, mem⟩
  have few : (indices N numProcs rank).length ≤ N := by
    have nodup : (indices N numProcs rank).Nodup := List.nodup_range'
    have subset : indices N numProcs rank ⊆ List.range N := fun i mem =>
      List.mem_range.mpr (inside i mem)
    simpa using (nodup.subperm subset).length_le
  have total : 0 + share N numProcs rank ≤ 3 := by
    rw [zero_add, ← Finset.sum_singleton (share N numProcs) rank]
    exact sum_share_le procs (Finset.singleton_subset_iff.mpr (Finset.mem_range.mpr h))
  have start : Near u N 0 zero.value := .refl le_rfl
  obtain ⟨v, folded, near⟩ := foldlM_near deep small inside le_rfl (by omega) start le_rfl total
  refine ⟨v, folded, ?_⟩
  rw [zero_add] at near
  exact near.mono (share_nonneg N numProcs rank) (by omega)

/-! ## The reduction -/

section Reduction

variable {depth N numProcs : Nat}

theorem Reduce.nonempty {results : Nat → Option Double} {group : Finset Nat} {v : Double}
    (h : Reduce results group v) : group.Nonempty := by
  induction h with
  | rank => exact Finset.singleton_nonempty _
  | add _ _ _ _ ih => exact ih.mono Finset.subset_union_left

/-- Groups of ranks are added with one rounding. -/
theorem add_groups (h : 0 < numProcs) {n : Nat} (few : n ≤ 2 ^ 52) {group group' : Finset Nat}
    {v w : Double} (apart : Disjoint group group') (inside : group ∪ group' ⊆ Finset.range numProcs)
    (near : Near u n (∑ rank ∈ group, share N numProcs rank) v.value)
    (near' : Near u n (∑ rank ∈ group', share N numProcs rank) w.value) :
    ∃ sum, v.add w = some sum ∧
      Near u (n + 1) (∑ rank ∈ group ∪ group', share N numProcs rank) sum.value := by
  have total := sum_share_le (N := N) h inside
  rw [Finset.sum_union apart] at total ⊢
  exact add_near near near' (Finset.sum_nonneg fun rank _ => share_nonneg _ _ rank)
    (Finset.sum_nonneg fun rank _ => share_nonneg _ _ rank) few total

/-- A reduction takes one rounding less than it has ranks. -/
theorem Reduce.near (deep : N ≤ depth) (small : N ≤ 171) (few : 2 * N + numProcs ≤ 2 ^ 52)
    {group : Finset Nat} {v : Double} (h : Reduce (localResult depth N numProcs) group v)
    (inside : group ⊆ Finset.range numProcs) :
    Near u (2 * N + group.card) (∑ rank ∈ group, share N numProcs rank) v.value := by
  induction h with
  | @rank rank v result =>
      have lt : rank < numProcs := Finset.mem_range.mp (Finset.singleton_subset_iff.mp inside)
      obtain ⟨v', result', near⟩ := localResult_near deep small lt
      cases result.symm.trans result'
      rw [Finset.sum_singleton]
      exact near.mono (share_nonneg N numProcs rank) (Nat.le_add_right _ _)
  | @add group group' v w sum apart reduced reduced' added ih ih' =>
      have one := reduced.nonempty.card_pos
      have one' := reduced'.nonempty.card_pos
      have card : (group ∪ group').card = group.card + group'.card :=
        Finset.card_union_of_disjoint apart
      have ranks : (group ∪ group').card ≤ numProcs := by
        simpa using Finset.card_le_card inside
      have lt : 0 < numProcs := by omega
      have nonneg (g : Finset Nat) : 0 ≤ ∑ rank ∈ g, share N numProcs rank :=
        Finset.sum_nonneg fun rank _ => share_nonneg _ _ rank
      obtain ⟨sum', added', near⟩ := add_groups (n := 2 * N + (group ∪ group').card - 1) lt
        (by omega) apart inside
        ((ih (Finset.union_subset_left inside)).mono (nonneg _) (by omega))
        ((ih' (Finset.union_subset_right inside)).mono (nonneg _) (by omega))
      cases added.symm.trans added'
      rwa [Nat.sub_add_cancel (by omega)] at near

theorem Reduce.exists_add (deep : N ≤ depth) (small : N ≤ 171) (few : 2 * N + numProcs ≤ 2 ^ 52)
    {group group' : Finset Nat} {v w : Double}
    (h : Reduce (localResult depth N numProcs) group v)
    (h' : Reduce (localResult depth N numProcs) group' w) (apart : Disjoint group group')
    (inside : group ∪ group' ⊆ Finset.range numProcs) : ∃ sum, v.add w = some sum := by
  have left := Finset.union_subset_left inside
  have right := Finset.union_subset_right inside
  have procs : 0 < numProcs := by
    have card := Finset.card_le_card left
    rw [Finset.card_range] at card
    exact h.nonempty.card_pos.trans_le card
  have size (g : Finset Nat) (part : g ⊆ Finset.range numProcs) : g.card ≤ numProcs := by
    simpa using Finset.card_le_card part
  have nonneg (g : Finset Nat) : 0 ≤ ∑ rank ∈ g, share N numProcs rank :=
    Finset.sum_nonneg fun rank _ => share_nonneg _ _ rank
  obtain ⟨sum, added, _⟩ := add_groups procs few apart inside
    ((h.near deep small few left).mono (nonneg _) (Nat.add_le_add_left (size _ left) _))
    ((h'.near deep small few right).mono (nonneg _) (Nat.add_le_add_left (size _ right) _))
  exact ⟨sum, added⟩

/-- The ranks can be reduced one after the other. -/
theorem exists_reduce (deep : N ≤ depth) (small : N ≤ 171) (few : 2 * N + numProcs ≤ 2 ^ 52)
    {ranks : Nat} (inside : ranks < numProcs) :
    ∃ v, Reduce (localResult depth N numProcs) (Finset.range (ranks + 1)) v := by
  induction ranks with
  | zero =>
      obtain ⟨v, result, _⟩ := localResult_near deep small inside
      exact ⟨v, by simpa using Reduce.rank result⟩
  | succ ranks ih =>
      obtain ⟨v, reduced⟩ := ih (Nat.lt_of_succ_lt inside)
      obtain ⟨w, result, _⟩ := localResult_near deep small inside
      have apart : Disjoint (Finset.range (ranks + 1)) {ranks + 1} := by simp
      have last : Finset.range (ranks + 1) ∪ {ranks + 1} = Finset.range (ranks + 1 + 1) := by
        rw [Finset.range_add_one (n := ranks + 1), Finset.insert_eq, Finset.union_comm]
      obtain ⟨sum, added⟩ := reduced.exists_add deep small few (.rank result) apart
        (last.trans_subset (Finset.range_mono inside))
      exact ⟨sum, last ▸ .add apart reduced (.rank result) added⟩

/-- How far a result is from the series in exact arithmetic. -/
theorem Reduce.abs_sub_series_le (deep : N ≤ depth) (small : N ≤ 171)
    (few : 2 * N + numProcs ≤ 2 ^ 52) (h : 0 < numProcs) {v : Double}
    (reduced : Reduce (localResult depth N numProcs) (Finset.range numProcs) v) :
    |v.value - ∑ i ∈ Finset.range N, 1 / (i.factorial : ℚ)| ≤
      (2 * N + numProcs) / 2 ^ 52 * ∑ i ∈ Finset.range N, 1 / (i.factorial : ℚ) := by
  have near := reduced.near deep small few subset_rfl
  rw [Finset.card_range, sum_share h] at near
  have nonneg : 0 ≤ ∑ i ∈ Finset.range N, 1 / (i.factorial : ℚ) :=
    Finset.sum_nonneg fun i _ => one_div_nonneg.mpr (Nat.cast_nonneg _)
  refine (near.abs_sub_le nonneg (few_roundings few)).trans_eq ?_
  have roundoff : u.val = 1 / 2 ^ 53 := rfl
  rw [roundoff]
  push_cast
  ring

/-- How far it is from `e`. -/
theorem Reduce.abs_sub_exp_le (deep : N ≤ depth) (small : N ≤ 171)
    (few : 2 * N + numProcs ≤ 2 ^ 52) (h : 0 < numProcs) (terms : 0 < N) {v : Double}
    (reduced : Reduce (localResult depth N numProcs) (Finset.range numProcs) v) :
    |(v.value : ℝ) - Real.exp 1| ≤
      (2 * N + numProcs) / 2 ^ 52 * Real.exp 1 + (N + 1) / (N.factorial * N) := by
  have rounding : |(v.value : ℝ) - (∑ i ∈ Finset.range N, 1 / (i.factorial : ℚ) : ℚ)| ≤
      (2 * N + numProcs) / 2 ^ 52 * (∑ i ∈ Finset.range N, 1 / (i.factorial : ℚ) : ℚ) := by
    have exactly := reduced.abs_sub_series_le deep small few h
    generalize (∑ i ∈ Finset.range N, 1 / (i.factorial : ℚ)) = series at exactly ⊢
    have real := (Rat.cast_le (K := ℝ)).mpr exactly
    push_cast at real
    exact real
  have relative : (0 : ℝ) ≤ (2 * N + numProcs) / 2 ^ 52 := by positivity
  calc |(v.value : ℝ) - Real.exp 1|
      ≤ |(v.value : ℝ) - (∑ i ∈ Finset.range N, 1 / (i.factorial : ℚ) : ℚ)| +
          |((∑ i ∈ Finset.range N, 1 / (i.factorial : ℚ) : ℚ) : ℝ) - Real.exp 1| :=
        abs_sub_le _ _ _
    _ ≤ (2 * N + numProcs) / 2 ^ 52 * Real.exp 1 + (N + 1) / (N.factorial * N) :=
        add_le_add
          (rounding.trans (mul_le_mul_of_nonneg_left (series_le_exp N) relative))
          (abs_series_sub_le terms)

end Reduction

/-! ## The result -/

/-- Up to 171 terms, on any number of processes that is an `int` and in whichever
order the reduction adds, nothing overflows, and the result is close to `e`. -/
theorem global_result_close (N numProcs : Nat) (terms : 0 < N) (small : N ≤ 171)
    (procs : 0 < numProcs) (int : numProcs < 2 ^ 31) (depth : Nat) (deep : N ≤ depth) :
    (∀ group group' v w, group ∪ group' ⊆ Finset.range numProcs → Disjoint group group' →
        Reduce (localResult depth N numProcs) group v →
        Reduce (localResult depth N numProcs) group' w → ∃ sum, v.add w = some sum) ∧
      (∃ globalResult,
        Reduce (localResult depth N numProcs) (Finset.range numProcs) globalResult) ∧
      ∀ globalResult,
        Reduce (localResult depth N numProcs) (Finset.range numProcs) globalResult →
          |(globalResult.value : ℝ) - Real.exp 1| ≤
            (2 * N + numProcs) / 2 ^ 52 * Real.exp 1 + (N + 1) / (N.factorial * N) := by
  have few : 2 * N + numProcs ≤ 2 ^ 52 := by omega
  refine ⟨fun group group' v w inside apart reduced reduced' =>
    reduced.exists_add deep small few reduced' apart inside, ?_, ?_⟩
  · obtain ⟨last, rfl⟩ := Nat.exists_eq_add_one_of_ne_zero procs.ne'
    exact exists_reduce deep small few last.lt_succ_self
  · exact fun v reduced => reduced.abs_sub_exp_le deep small few procs terms

/-- Twenty terms on three processes. -/
theorem global_result_close_on_three : ∃ globalResult,
    Reduce (localResult 20 20 3) (Finset.range 3) globalResult ∧
      |(globalResult.value : ℝ) - Real.exp 1| ≤
        (2 * (20 : Nat) + (3 : Nat)) / 2 ^ 52 * Real.exp 1 +
          ((20 : Nat) + 1) / ((20 : Nat).factorial * (20 : Nat)) := by
  obtain ⟨_, ⟨v, reduced⟩, close⟩ := global_result_close 20 3 (by decide) (by decide) (by decide)
    (by decide) 20 le_rfl
  exact ⟨v, reduced, close v reduced⟩

/-! ## The output -/

/-- The `N` that the first rank broadcasts. -/
def broadcastN : Nat := 32

/-- What the first rank writes. -/
def printed (globalResult : Double) : Option (List Char) :=
  (shown globalResult.value).map ("Exponent of 1.0 = ".toList ++ ·)

theorem shown_of_close {x : ℚ} (low : 2.718275 < x) (high : x < 2.718285) :
    shown x = some "2.71828".toList := by
  norm_num at low high
  have digits {q : ℚ} (scaled : q = 100000 * x) : roundEven q = 271828 := by
    obtain ⟨below, above⟩ := abs_le.mp (abs_roundEven_sub_le q)
    have least : ((271827 : ℤ) : ℚ) < roundEven q := by
      push_cast
      linarith
    have most : (roundEven q : ℚ) < ((271829 : ℤ) : ℚ) := by
      push_cast
      linarith
    have := Int.cast_lt.mp least
    have := Int.cast_lt.mp most
    omega
  rw [shown, digits (by ring), if_pos ⟨by linarith, by decide⟩]
  decide

/-- All digits of `e` that are shown are right, on every number of processes
and for every reduction. -/
theorem prints_all_digits (numProcs : Nat) (procs : 0 < numProcs) (int : numProcs < 2 ^ 31)
    (depth : Nat) (deep : broadcastN ≤ depth) :
    (∃ globalResult,
      Reduce (localResult depth broadcastN numProcs) (Finset.range numProcs) globalResult) ∧
    ∀ globalResult,
      Reduce (localResult depth broadcastN numProcs) (Finset.range numProcs) globalResult →
        printed globalResult = some "Exponent of 1.0 = 2.71828".toList := by
  have few : 2 * broadcastN + numProcs ≤ 2 ^ 52 := by
    rw [broadcastN]
    omega
  have small : broadcastN ≤ 171 := by decide
  refine ⟨?_, fun v reduced => ?_⟩
  · obtain ⟨last, rfl⟩ := Nat.exists_eq_add_one_of_ne_zero procs.ne'
    exact exists_reduce deep small few last.lt_succ_self
  · have error : |(v.value : ℝ) - Real.exp 1| ≤ 3 / 10 ^ 6 := by
      have bound := reduced.abs_sub_exp_le deep small few procs (by decide)
      have relative : (2 * (broadcastN : ℝ) + numProcs) / 2 ^ 52 ≤ 1 / 2 ^ 20 := by
        have most : (2 * (broadcastN : ℝ) + numProcs) ≤ 2 ^ 32 := by
          exact_mod_cast (by rw [broadcastN]; omega : 2 * broadcastN + numProcs ≤ 2 ^ 32)
        rw [div_le_div_iff₀ (by positivity) (by positivity)]
        linarith
      have tail : ((broadcastN : ℝ) + 1) / (broadcastN.factorial * broadcastN) ≤ 1 / 10 ^ 9 := by
        norm_num [broadcastN, Nat.factorial]
      have rounding := mul_le_mul_of_nonneg_right relative (Real.exp_pos 1).le
      linarith [Real.exp_one_lt_d9]
    obtain ⟨below, above⟩ := abs_le.mp error
    have low : (2.718275 : ℚ) < v.value := by
      have real : ((2.718275 : ℚ) : ℝ) < v.value := by
        push_cast
        linarith [Real.exp_one_gt_d9]
      exact_mod_cast real
    have high : v.value < (2.718285 : ℚ) := by
      have real : (v.value : ℝ) < ((2.718285 : ℚ) : ℝ) := by
        push_cast
        linarith [Real.exp_one_lt_d9]
      exact_mod_cast real
    rw [printed, shown_of_close low high]
    rfl

/-- On five processes. -/
theorem prints_all_digits_five : ∃ globalResult,
    Reduce (localResult 32 broadcastN 5) (Finset.range 5) globalResult ∧
      printed globalResult = some "Exponent of 1.0 = 2.71828".toList := by
  obtain ⟨⟨v, reduced⟩, all⟩ := prints_all_digits 5 (by decide) (by decide) 32 le_rfl
  exact ⟨v, reduced, all v reduced⟩

end Rounded

end Exponent
