import Mathlib.Tactic.Linarith
import Mathlib.Tactic.Ring
import Technosphere.ForkJoin.Work
import Technosphere.QuickSort.Sorting

/-!
# The work of the sorts

The pivot is the last element, so an array that is sorted already is split as
badly as possible. `qsort_work` says that no array takes more steps than a sorted
one, and how many these are, whatever the schedule of the tasks.
-/

namespace QuickSort

open ForkJoin Job

/-- The steps of `std_qsort_inner` on a sorted range of this size. -/
def mostSteps : Nat → Nat
  | 0 | 1 => 0
  | k + 2 => mostSteps (k + 1) + 5 * (k + 2) + 3

/-- Two ranges take no longer than one of their size. -/
theorem mostSteps_add_le (a b : Nat) : mostSteps a + mostSteps b ≤ mostSteps (a + b) := by
  induction b using mostSteps.induct with
  | case1 => exact Nat.le_refl _
  | case2 =>
      cases a with
      | zero => exact Nat.le_refl _
      | succ a =>
          simp only [mostSteps]
          omega
  | case3 b ih =>
      calc mostSteps a + mostSteps (b + 2)
          = mostSteps a + mostSteps (b + 1) + 5 * (b + 2) + 3 := by
            rw [mostSteps]
            omega
        _ ≤ mostSteps (a + (b + 1)) + 5 * (a + b + 2) + 3 := by omega
        _ = mostSteps (a + (b + 2)) := rfl

theorem two_mul_mostSteps (k : Nat) :
    2 * mostSteps (k + 1) + 16 = 5 * (k + 1) * (k + 1) + 11 * (k + 1) := by
  induction k with
  | zero => rfl
  | succ k ih =>
      rw [mostSteps]
      calc 2 * (mostSteps (k + 1) + 5 * (k + 2) + 3) + 16
          = (2 * mostSteps (k + 1) + 16) + (10 * (k + 2) + 6) := by ring
        _ = 5 * (k + 1) * (k + 1) + 11 * (k + 1) + (10 * (k + 2) + 6) := by rw [ih]
        _ = 5 * (k + 2) * (k + 2) + 11 * (k + 2) := by ring

/-- How many elements there are between the borders. -/
def size (l r : Int) : Nat := (r + 1 - l).toNat

/-! ## One partition -/

section Partition

variable {l r p : Int} {m m' : Int → Int} {n : Nat}

theorem exec_of_int {value : Int} {code : Code} (run : Exec body (int value code) m n m') :
    Exec body code m n m' := by
  rw [int] at run
  split at run
  · exact run
  · cases run

/-- The four accesses of an exchange. -/
theorem exec_of_exchange {i j : Int} {code : Code}
    (run : Exec body (.read i fun tmp => .read j fun elem => .write i elem <|
      .write j tmp code) m n m') :
    ∃ k, n = k + 4 ∧
      Exec body code (Function.update (Function.update m i (m j)) j (m i)) k m' := by
  cases run with
  | read run => cases run with
    | read run => cases run with
      | write run => cases run with
        | write run => exact ⟨_, rfl, run⟩

theorem scan_steps_le {pivot more less : Int} {rest : Int → Code} {m₁ : Int → Int} {n : Nat}
    (h : Scanned l r m pivot more less m₁)
    (run : Exec body (scan pivot r rest more less) m₁ n m') :
    ∃ p m₂ k, Partitioned l r m p m₂ ∧ Exec body (rest p) m₂ k m' ∧ n ≤ k + 5 * size more r := by
  rw [scan] at run
  by_cases inside : more ≤ r
  · have shrinks : size more r = size (more + 1) r + 1 := by
      rw [size, size]
      omega
    rw [if_pos inside] at run
    cases run with
    | read run =>
        dsimp only at run
        by_cases small : m₁ more ≤ pivot
        · rw [if_pos small] at run
          obtain ⟨_, four, run⟩ := exec_of_exchange (exec_of_int run)
          obtain ⟨p, m₂, k, parted, last, bound⟩ :=
            scan_steps_le (h.swap inside small) (exec_of_int run)
          exact ⟨p, m₂, k, parted, last, by omega⟩
        · rw [if_neg small] at run
          obtain ⟨p, m₂, k, parted, last, bound⟩ :=
            scan_steps_le (h.skip inside small) (exec_of_int run)
          exact ⟨p, m₂, k, parted, last, by omega⟩
  · rw [if_neg inside] at run
    exact ⟨less, m₁, n, h.partitioned (by omega), run, Nat.le_add_right _ _⟩
termination_by (r + 1 - more).toNat

theorem partition_steps_le {rest : Int → Code} (order : l < r)
    (run : Exec body (partition l r rest) m n m') :
    ∃ p m₁ k, Partitioned l r m p m₁ ∧ Exec body (rest p) m₁ k m' ∧ n ≤ k + 5 * size l r + 1 := by
  cases run with
  | read run =>
      obtain ⟨p, m₁, k, parted, last, bound⟩ :=
        scan_steps_le (Scanned.start order m) (exec_of_int run)
      exact ⟨p, m₁, k, parted, last, by omega⟩

/-- In front of a sorted part every element is exchanged with itself. -/
theorem scan_steps_sorted {pivot more : Int} {rest : Int → Code} {n : Nat}
    (small : ∀ i, more ≤ i → i ≤ r → m i ≤ pivot) (within : more ≤ r + 1)
    (run : Exec body (scan pivot r rest more (more - 1)) m n m') :
    ∃ k, Exec body (rest r) m k m' ∧ n = k + 5 * size more r := by
  rw [scan] at run
  by_cases inside : more ≤ r
  · have shrinks : size more r = size (more + 1) r + 1 := by
      rw [size, size]
      omega
    rw [if_pos inside] at run
    cases run with
    | read run =>
        dsimp only at run
        rw [if_pos (small more le_rfl inside), Int.sub_add_cancel] at run
        obtain ⟨_, four, run⟩ := exec_of_exchange (exec_of_int run)
        have next := exec_of_int run
        rw [Function.update_eq_self, Function.update_eq_self] at next
        have passed : scan pivot r rest (more + 1) more =
            scan pivot r rest (more + 1) (more + 1 - 1) := by
          rw [Int.add_sub_cancel]
        rw [passed] at next
        obtain ⟨k, last, total⟩ := scan_steps_sorted
          (fun i low high => small i (by omega) high) (by omega) next
        exact ⟨k, last, by omega⟩
  · rw [if_neg inside] at run
    have last : more - 1 = r := by omega
    have nothing : size more r = 0 := by
      rw [size]
      omega
    rw [last] at run
    exact ⟨n, run, by omega⟩
termination_by (r + 1 - more).toNat

theorem partition_steps_sorted {rest : Int → Code} (order : l < r) (sorted : SortedOn l r m)
    (run : Exec body (partition l r rest) m n m') :
    ∃ k, Exec body (rest r) m k m' ∧ n = k + 5 * size l r + 1 := by
  cases run with
  | read run =>
      obtain ⟨k, last, total⟩ := scan_steps_sorted
        (fun i low high => sorted i r low high le_rfl) (by omega) (exec_of_int run)
      exact ⟨k, last, by omega⟩

theorem serially_steps (run : Exec body (serially l r p) m n m') :
    ∃ a b m₁, n = a + b + 2 ∧ Exec body (stdQsortInner l (p - 1)) m a m₁ ∧
      Exec body (stdQsortInner (p + 1) r) m₁ b m' := by
  obtain ⟨a, c, m₁, total, left, rest⟩ := (exec_of_int run).of_call
  obtain ⟨b, total', right⟩ := (exec_of_int rest).of_last_call
  exact ⟨a, b, m₁, by omega, left, right⟩

theorem inTasks_steps (run : Exec body (inTasks l r p) m n m') :
    ∃ a b m₁, n = a + b + 3 ∧ Exec body (ompQsortInner l (p - 1)) m a m₁ ∧
      Exec body (ompQsortInner (p + 1) r) m₁ b m' := by
  cases run with
  | both first second rest =>
      obtain ⟨a, total, left⟩ := (exec_of_int first).of_last_call
      obtain ⟨b, total', right⟩ := (exec_of_int second).of_last_call
      cases rest
      exact ⟨a, b, _, by omega, left, right⟩

end Partition

/-! ## All of them -/

section Recursion

variable {l r p : Int}

/-- Without the pivot the two parts have one element less. -/
theorem size_parts (low : l ≤ p) (high : p ≤ r) :
    size l (p - 1) + size (p + 1) r + 1 = size l r := by
  simp only [size]
  omega

/-- The steps of a partition and of both parts. -/
theorem mostSteps_parts (order : l < r) (low : l ≤ p) (high : p ≤ r) :
    mostSteps (size l (p - 1)) + mostSteps (size (p + 1) r) + 5 * size l r + 3 ≤
      mostSteps (size l r) := by
  have parts := size_parts low high
  obtain ⟨k, some'⟩ : ∃ k, size l r = k + 2 := ⟨size l r - 2, by
    rw [size]
    omega⟩
  have both := mostSteps_add_le (size l (p - 1)) (size (p + 1) r)
  have less : size l (p - 1) + size (p + 1) r = k + 1 := by omega
  rw [less] at both
  rw [some', mostSteps]
  omega

theorem stdQsortInner_steps_le {l r : Int} {m m' : Int → Int} {n : Nat}
    (run : Exec body (stdQsortInner l r) m n m') : n ≤ mostSteps (size l r) := by
  rw [stdQsortInner] at run
  by_cases order : r > l
  · rw [if_pos order] at run
    obtain ⟨p, m₁, k, parted, rest, bound⟩ := partition_steps_le order run
    obtain ⟨a, b, m₂, total, left, right⟩ := serially_steps rest
    have lower := parted.lower
    have upper := parted.upper
    have first := stdQsortInner_steps_le left
    have second := stdQsortInner_steps_le right
    have parts := mostSteps_parts order lower upper
    omega
  · rw [if_neg order] at run
    cases run
    exact Nat.zero_le _
termination_by size l r
decreasing_by
  all_goals
    simp only [size]
    omega

/-- A join for each fork is all that the tasks add. -/
theorem ompQsortInner_steps_le {l r : Int} {m m' : Int → Int} {n : Nat}
    (run : Exec body (ompQsortInner l r) m n m') : n ≤ mostSteps (size l r) + size l r := by
  rw [ompQsortInner] at run
  by_cases order : r > l
  · rw [if_pos order] at run
    obtain ⟨p, m₁, k, parted, rest, bound⟩ := partition_steps_le order run
    have lower := parted.lower
    have upper := parted.upper
    have parts := mostSteps_parts order lower upper
    have fewer := size_parts lower upper
    have rest := exec_of_int rest
    split at rest
    · obtain ⟨a, b, m₂, total, left, right⟩ := inTasks_steps rest
      have first := ompQsortInner_steps_le left
      have second := ompQsortInner_steps_le right
      omega
    · obtain ⟨a, b, m₂, total, left, right⟩ := serially_steps rest
      have first := stdQsortInner_steps_le left
      have second := stdQsortInner_steps_le right
      omega
  · rw [if_neg order] at run
    cases run
    exact Nat.zero_le _
termination_by size l r
decreasing_by
  all_goals
    simp only [size]
    omega

theorem stdQsortInner_steps_sorted {l r : Int} {m m' : Int → Int} {n : Nat}
    (sorted : SortedOn l r m) (run : Exec body (stdQsortInner l r) m n m') :
    n = mostSteps (size l r) := by
  rw [stdQsortInner] at run
  by_cases order : r > l
  · rw [if_pos order] at run
    obtain ⟨k, rest, total⟩ := partition_steps_sorted order sorted run
    obtain ⟨a, b, m₁, total', left, right⟩ := serially_steps rest
    have first : a = mostSteps (size l (r - 1)) :=
      stdQsortInner_steps_sorted
        (fun i j low between high => sorted i j low between (by omega)) left
    have second : b = 0 := by
      rw [stdQsortInner, if_neg (by omega)] at right
      cases right
      rfl
    obtain ⟨k', some', one⟩ : ∃ k, size l r = k + 2 ∧ size l (r - 1) = k + 1 := by
      refine ⟨size l r - 2, ?_⟩
      simp only [size]
      omega
    rw [some', mostSteps]
    rw [one] at first
    omega
  · rw [if_neg order] at run
    cases run
    have few : size l r = 0 ∨ size l r = 1 := by
      rw [size]
      omega
    obtain none | one := few
    · rw [none]
      rfl
    · rw [one]
      rfl
termination_by size l r
decreasing_by
  simp only [size]
  omega

end Recursion

/-! ## Whole sorts -/

theorem two_mul_mostSteps_size {len : Int} (some' : 1 ≤ len) :
    2 * (mostSteps (size 0 (len - 1)) : Int) + 16 = 5 * len * len + 11 * len := by
  obtain ⟨k, rfl⟩ : ∃ k : Nat, len = k + 1 := ⟨(len - 1).toNat, by omega⟩
  have all : size 0 ((k : Int) + 1 - 1) = k + 1 := by
    rw [size]
    omega
  rw [all]
  exact_mod_cast two_mul_mostSteps k

/-- In every schedule `std_qsort` takes at most as many steps as on an array that
is sorted already. `omp_qsort` takes equally many in all schedules, and at most
one for each element more than that. -/
theorem qsort_work (data : Int → Int) (len : Int) (some' : 1 ≤ len) (fits : len < 2 ^ 31) :
    (∀ k state, Schedule body (stdQsort len, data) k state →
        2 * (k : Int) + 14 ≤ 5 * len * len + 11 * len ∧
          (SortedOn 0 (len - 1) data → (∀ next, ¬ Step body state next) →
            2 * (k : Int) + 14 = 5 * len * len + 11 * len)) ∧
      ∃ n : Nat, 2 * (n : Int) + 14 ≤ 5 * len * len + 13 * len ∧
        ∀ k state, Schedule body (ompQsort len, data) k state →
          k ≤ n ∧ ((∀ next, ¬ Step body state next) → k = n) := by
  obtain ⟨data', serial, parallel⟩ :=
    executes_both (l := 0) (r := len - 1) le_rfl (by omega) data
  have most := two_mul_mostSteps_size some'
  have elements : (size 0 (len - 1) : Int) = len := by
    rw [size]
    omega
  constructor
  · obtain ⟨n, run⟩ : Executes body (stdQsort len) data data' :=
      executes_int (by omega) (by omega) (.call serial (.done data'))
    obtain ⟨a, total, inner⟩ := (exec_of_int run).of_last_call
    intro k state schedule
    have bound := stdQsortInner_steps_le inner
    have shorter := run.schedule_le respects (confined_stdQsort len) schedule
    refine ⟨by omega, fun sorted stuck => ?_⟩
    have whole := run.schedule_eq respects (confined_stdQsort len) schedule stuck
    have exact' := stdQsortInner_steps_sorted sorted inner
    omega
  · obtain ⟨n, run⟩ : Executes body (ompQsort len) data data' :=
      executes_int (by omega) (by omega) (.call parallel (.done data'))
    obtain ⟨a, total, inner⟩ := (exec_of_int run).of_last_call
    have bound := ompQsortInner_steps_le inner
    refine ⟨n, by linarith, fun k state schedule => ⟨?_, fun stuck => ?_⟩⟩
    · exact run.schedule_le respects (confined_ompQsort len) schedule
    · exact run.schedule_eq respects (confined_ompQsort len) schedule stuck

theorem qsort_work_three : 1 ≤ (3 : Int) ∧ (3 : Int) < 2 ^ 31 ∧
    ∀ k state, Schedule body (stdQsort 3, fun i => i) k state →
      k ≤ 32 ∧ ((∀ next, ¬ Step body state next) → k = 32) := by
  refine ⟨by decide, by decide, fun k state schedule => ?_⟩
  obtain ⟨bound, exact'⟩ := (qsort_work (fun i => i) 3 (by decide) (by decide)).1 k state schedule
  have sorted : SortedOn 0 (3 - 1) fun i => i := fun _ _ _ order _ => order
  refine ⟨by omega, fun stuck => ?_⟩
  have whole := exact' sorted stuck
  omega

end QuickSort
