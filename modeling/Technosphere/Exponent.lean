import Mathlib.Algebra.BigOperators.Intervals
import Mathlib.Algebra.BigOperators.Ring.Finset
import Mathlib.Algebra.Field.Rat
import Mathlib.Data.Nat.Factorial.Basic
import Mathlib.Tactic.FieldSimp

/-!
# The series of the exponential function over several processes

Each rank sums its own portion of the terms `1 / i!`, and `MPI_Reduce` adds the
local results up. Numbers are rational, so nothing is rounded. `depth` bounds
the nesting of the calls of `fact`.
-/

namespace Exponent

/-- `fact`, or `none` when its calls nest deeper than `depth`. -/
def fact : Nat → ℚ → Option ℚ
  | 0, _ => none
  | depth + 1, n => if n = 0 then some 1 else (fact depth (n - 1)).map fun v => n * v

example : fact 5 4 = some 24 := by decide +kernel

theorem fact_natCast {depth i : Nat} (deep : i < depth) :
    fact depth i = some (i.factorial : ℚ) := by
  induction i generalizing depth with
  | zero =>
      obtain ⟨depth, rfl⟩ := Nat.exists_eq_add_of_lt deep
      simp [fact]
  | succ i ih =>
      obtain ⟨depth, rfl⟩ := Nat.exists_eq_succ_of_ne_zero (Nat.ne_zero_of_lt deep)
      have nonzero : ((i + 1 : Nat) : ℚ) ≠ 0 := Nat.cast_ne_zero.mpr i.succ_ne_zero
      have previous : ((i + 1 : Nat) : ℚ) - 1 = (i : ℚ) := by simp
      rw [fact, if_neg nonzero, previous, ih (Nat.lt_of_succ_lt_succ deep), Option.map_some,
        Nat.factorial_succ, Nat.cast_mul]

/-! ## The portions -/

def stdPortionSize (N numProcs : Nat) : Nat := N / numProcs

/-- The last rank also takes the rest. -/
def portionSize (N numProcs rank : Nat) : Nat :=
  let rest := N % numProcs
  if rank = numProcs - 1 ∧ rest > 0 then stdPortionSize N numProcs + rest
  else stdPortionSize N numProcs

/-- The values of `i` in the loop of a rank. -/
def indices (N numProcs rank : Nat) : List Nat :=
  List.range' (rank * stdPortionSize N numProcs) (portionSize N numProcs rank)

example : indices 7 3 2 = [4, 5, 6] := by decide

variable {N numProcs : Nat}

theorem portionSize_of_lt {rank : Nat} (h : rank + 1 < numProcs) :
    portionSize N numProcs rank = stdPortionSize N numProcs :=
  if_neg fun last => by omega

theorem portionSize_last {last : Nat} : portionSize N (last + 1) last =
    stdPortionSize N (last + 1) + N % (last + 1) := by
  rw [portionSize]
  split
  · rfl
  · omega

theorem range_append_range' (a b : Nat) :
    List.range a ++ List.range' a b = List.range (a + b) := by
  rw [List.range_eq_range', List.range_eq_range', ← List.range'_append_1, Nat.zero_add]

/-- The portions of all ranks but the last follow each other. -/
theorem flatMap_indices_of_lt {ranks : Nat} (h : ranks < numProcs) :
    (List.range ranks).flatMap (indices N numProcs) =
      List.range (ranks * stdPortionSize N numProcs) := by
  induction ranks with
  | zero => simp
  | succ ranks ih =>
      rw [List.range_succ, List.flatMap_append, ih (by omega), List.flatMap_singleton, indices,
        portionSize_of_lt h, range_append_range', Nat.succ_mul]

/-- One after the other the ranks count from `0` to `N - 1`. -/
theorem flatMap_indices (h : 0 < numProcs) :
    (List.range numProcs).flatMap (indices N numProcs) = List.range N := by
  obtain ⟨last, rfl⟩ := Nat.exists_eq_add_one_of_ne_zero (Nat.ne_of_gt h)
  have whole : (last + 1) * (N / (last + 1)) + N % (last + 1) = N := Nat.div_add_mod N (last + 1)
  rw [List.range_succ, List.flatMap_append, flatMap_indices_of_lt (Nat.lt_succ_self last),
    List.flatMap_singleton, indices, portionSize_last, range_append_range', ← Nat.add_assoc,
    ← Nat.succ_mul, stdPortionSize, Nat.succ_eq_add_one, whole]

/-! ## Summation -/

/-- One pass of the loop. -/
def addTerm (depth : Nat) (localResult : ℚ) (i : Nat) : Option ℚ :=
  (fact depth i).map fun v => localResult + 1 / v

def localResult (depth N numProcs rank : Nat) : Option ℚ :=
  (indices N numProcs rank).foldlM (addTerm depth) 0

/-- `MPI_Reduce` with `MPI_SUM` over a group of ranks: the sums of two parts of
the group are added, in whichever way the library divides it. -/
inductive Reduce (results : Nat → Option ℚ) : Finset Nat → ℚ → Prop where
  | rank {r v} : results r = some v → Reduce results {r} v
  | add {group group' v w} : Disjoint group group' → Reduce results group v →
      Reduce results group' w → Reduce results (group ∪ group') (v + w)

theorem foldlM_addTerm {depth : Nat} {l : List Nat} (deep : ∀ i ∈ l, i < depth) (v : ℚ) :
    l.foldlM (addTerm depth) v = some (v + (l.map fun i => 1 / (i.factorial : ℚ)).sum) := by
  induction l generalizing v with
  | nil => simp
  | cons i l ih =>
      have term : addTerm depth v i = some (v + 1 / (i.factorial : ℚ)) := by
        rw [addTerm, fact_natCast (deep i List.mem_cons_self)]
        rfl
      rw [List.foldlM_cons, term, List.map_cons, List.sum_cons, ← add_assoc]
      exact ih (fun j hj => deep j (List.mem_cons_of_mem _ hj)) _

/-- A reduction adds every local result of its group once. -/
theorem Reduce.eq_sum {results : Nat → Option ℚ} {group : Finset Nat} {v : ℚ} {share : Nat → ℚ}
    (h : Reduce results group v) (shares : ∀ r ∈ group, results r = some (share r)) :
    v = ∑ r ∈ group, share r := by
  induction h with
  | rank result =>
      have same := result.symm.trans (shares _ (Finset.mem_singleton_self _))
      rw [Finset.sum_singleton, Option.some_injective _ same]
  | add apart _ _ ih ih' =>
      rw [Finset.sum_union apart, ← ih fun r hr => shares r (Finset.mem_union_left _ hr),
        ← ih' fun r hr => shares r (Finset.mem_union_right _ hr)]

/-- The ranks can be reduced one after the other. -/
theorem reduce_range {results : Nat → Option ℚ} {share : Nat → ℚ} {ranks : Nat}
    (shares : ∀ r < ranks + 1, results r = some (share r)) :
    Reduce results (Finset.range (ranks + 1)) (∑ r ∈ Finset.range (ranks + 1), share r) := by
  induction ranks with
  | zero => simpa using Reduce.rank (shares 0 Nat.one_pos)
  | succ ranks ih =>
      have apart : Disjoint (Finset.range (ranks + 1)) {ranks + 1} := by simp
      have last : Finset.range (ranks + 1) ∪ {ranks + 1} = Finset.range (ranks + 1 + 1) := by
        rw [Finset.range_add_one (n := ranks + 1), Finset.insert_eq, Finset.union_comm]
      rw [Finset.sum_range_succ, ← last]
      exact .add apart (ih fun r hr => shares r (Nat.lt_succ_of_lt hr))
        (.rank (shares _ (Nat.lt_succ_self _)))

/-! ## The result -/

theorem mem_indices_iff {numProcs : Nat} (h : 0 < numProcs) {i : Nat} :
    (∃ rank < numProcs, i ∈ indices N numProcs rank) ↔ i < N := by
  rw [← List.mem_range, ← flatMap_indices h]
  simp

/-- Ranks have their own terms: no index is in the lists of two ranks. -/
theorem disjoint_indices {rank rank' : Nat} (h : rank < rank') (h' : rank' < numProcs) :
    (indices N numProcs rank).Disjoint (indices N numProcs rank') := by
  intro i mem mem'
  obtain ⟨_, before⟩ := List.mem_range'_1.mp mem
  obtain ⟨behind, _⟩ := List.mem_range'_1.mp mem'
  rw [portionSize_of_lt (by omega), ← Nat.succ_mul] at before
  have ordered : rank.succ * stdPortionSize N numProcs ≤ rank' * stdPortionSize N numProcs :=
    Nat.mul_le_mul_right _ h
  omega

/-- What a rank contributes. -/
def share (N numProcs rank : Nat) : ℚ :=
  ((indices N numProcs rank).map fun i => 1 / (i.factorial : ℚ)).sum

theorem localResult_eq {depth : Nat} (deep : N ≤ depth) {rank : Nat} (h : rank < numProcs) :
    localResult depth N numProcs rank = some (share N numProcs rank) := by
  have covered (i : Nat) (mem : i ∈ indices N numProcs rank) : i < depth :=
    Nat.lt_of_lt_of_le ((mem_indices_iff (Nat.zero_lt_of_lt h)).mp ⟨rank, h, mem⟩) deep
  rw [localResult, foldlM_addTerm covered, zero_add, share]

theorem sum_share (h : 0 < numProcs) :
    ∑ rank ∈ Finset.range numProcs, share N numProcs rank =
      ∑ i ∈ Finset.range N, 1 / (i.factorial : ℚ) := by
  calc ∑ rank ∈ Finset.range numProcs, share N numProcs rank
      = ((List.range numProcs).map (share N numProcs)).sum := rfl
    _ = (((List.range numProcs).flatMap (indices N numProcs)).map
          fun i => 1 / (i.factorial : ℚ)).sum := by
        rw [List.map_flatMap, List.flatMap_def, List.sum_flatten, List.map_map]
        rfl
    _ = ((List.range N).map fun i => 1 / (i.factorial : ℚ)).sum := by rw [flatMap_indices h]
    _ = ∑ i ∈ Finset.range N, 1 / (i.factorial : ℚ) := rfl

/-- Whatever the number of processes is, they split the indices `0` to `N - 1`
among themselves, and every reduction of their results is the whole series. -/
theorem global_result_eq (N numProcs : Nat) (h : 0 < numProcs) :
    (∀ rank < numProcs, ∀ rank' < numProcs, rank ≠ rank' →
        (indices N numProcs rank).Disjoint (indices N numProcs rank')) ∧
      (∀ i, (∃ rank < numProcs, i ∈ indices N numProcs rank) ↔ i < N) ∧
      ∀ depth ≥ N,
        (∃ globalResult,
          Reduce (localResult depth N numProcs) (Finset.range numProcs) globalResult) ∧
        ∀ globalResult,
          Reduce (localResult depth N numProcs) (Finset.range numProcs) globalResult →
            globalResult = ∑ i ∈ Finset.range N, 1 / (i.factorial : ℚ) := by
  refine ⟨fun rank lt rank' lt' other => ?_, fun i => mem_indices_iff h, fun depth deep => ?_⟩
  · rcases Nat.lt_or_gt_of_ne other with before | behind
    · exact disjoint_indices before lt'
    · exact (disjoint_indices behind lt).symm
  · obtain ⟨last, rfl⟩ := Nat.exists_eq_add_one_of_ne_zero (Nat.ne_of_gt h)
    refine ⟨⟨_, reduce_range fun rank lt => localResult_eq deep lt⟩, fun globalResult reduced => ?_⟩
    rw [reduced.eq_sum fun rank mem => localResult_eq deep (Finset.mem_range.mp mem),
      sum_share h]

/-- Five processes for three terms. -/
theorem global_result_eq_few_terms :
    0 < 5 ∧ ∀ globalResult, Reduce (localResult 3 3 5) (Finset.range 5) globalResult →
      globalResult = ∑ i ∈ Finset.range 3, 1 / (i.factorial : ℚ) :=
  ⟨by decide, ((global_result_eq 3 5 (by decide)).2.2 3 le_rfl).2⟩

end Exponent
