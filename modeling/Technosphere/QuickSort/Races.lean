import Technosphere.ForkJoin.Races
import Technosphere.QuickSort.Sorting

/-!
# The tasks of the parallel sort

However the threads share the tasks, the tasks never race for an element.
-/

namespace QuickSort

open ForkJoin

/-- In every state of every schedule of `omp_qsort`, no two tasks are about to
access one element, no `int` has overflown, and the next access of every task is
to one of the first `len` elements. -/
theorem omp_qsort_race_free (data : Int → Int) (len : Int) (low : -2 ^ 31 < len)
    (high : len < 2 ^ 31) (state : Code × (Int → Int))
    (reached : Reaches body (ompQsort len, data) state) :
    ¬ state.1.Collides ∧ ¬ state.1.Faulty ∧ ∀ i, state.1.Accesses i → 0 ≤ i ∧ i < len := by
  obtain ⟨data', _, parallel⟩ := executes_both (l := 0) (r := len - 1) le_rfl (by omega) data
  have whole : Executes body (ompQsort len) data data' :=
    executes_int (by omega) (by omega) (.call parallel (.done data'))
  obtain ⟨apart, defined, within⟩ := whole.safe respects (confined_ompQsort len) reached
  refine ⟨apart, defined, fun i access => ?_⟩
  obtain ⟨first, last⟩ := within i access
  exact ⟨first, by omega⟩

/-- The call for 2000 elements is about to read its pivot. -/
theorem omp_qsort_race_free_started : ∃ state : Code × (Int → Int),
    Reaches body (ompQsort 2000, fun i => -i) state ∧ state.1.Accesses 1999 ∧
      ¬ state.1.Collides ∧ ¬ state.1.Faulty := by
  have called : Step body (ompQsort 2000, fun i => -i)
      ((ompQsortInner 0 1999).seq .done, fun i => -i) := .call
  obtain ⟨apart, defined, _⟩ :=
    omp_qsort_race_free (fun i => -i) 2000 (by decide) (by decide) _ (.single called)
  refine ⟨_, .single called, ?_, apart, defined⟩
  rw [ompQsortInner, if_pos (by decide)]
  exact .read

end QuickSort
