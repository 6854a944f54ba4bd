import Technosphere.QuickSort.Partition

/-!
# Both sorts sort

The serial sort orders the elements between its borders, and the parallel one
leaves the same array under every interleaving of its tasks.
-/

namespace QuickSort

open ForkJoin Job Set

variable {l r p : Int} {m m₁ m' : Int → Int}

/-- The elements between the borders are in non-decreasing order. -/
def SortedOn (l r : Int) (m : Int → Int) : Prop :=
  ∀ i j, l ≤ i → i ≤ j → j ≤ r → m i ≤ m j

/-- Two sorted parts with the pivot between them are sorted together. -/
theorem sortedOn_join (left : SortedOn l (p - 1) m)
    (right : SortedOn (p + 1) r m) (small : ∀ i ∈ borders l (p - 1), m i ≤ m p)
    (large : ∀ i ∈ borders (p + 1) r, m p ≤ m i) : SortedOn l r m := by
  intro i j li ij jr
  rcases lt_trichotomy i p with ip | rfl | pi
  · have low : m i ≤ m p := small i ⟨li, by omega⟩
    rcases lt_trichotomy j p with jp | rfl | pj
    · exact left i j li ij (by omega)
    · exact low
    · exact low.trans (large j ⟨by omega, jr⟩)
  · rcases eq_or_ne j i with rfl | other
    · exact le_rfl
    · exact large j ⟨by omega, jr⟩
  · exact right i j (by omega) ij jr

/-- The two parts are sorted after the partition. -/
theorem Partitioned.sortedOn {m₂ : Int → Int} (h : Partitioned l r m p m₁)
    (left : Permuted l (p - 1) m₁ m₂) (leftSorted : SortedOn l (p - 1) m₂)
    (right : Permuted (p + 1) r m₂ m') (rightSorted : SortedOn (p + 1) r m') :
    SortedOn l r m' := by
  have notLeft (i : Int) (hi : p ≤ i) : i ∉ borders l (p - 1) := fun mem => by
    have := mem.2
    omega
  have notRight (i : Int) (hi : i ≤ p) : i ∉ borders (p + 1) r := fun mem => by
    have := mem.1
    omega
  have atPivot : m' p = m₁ p :=
    (right.eq_of_notMem (notRight p le_rfl)).trans (left.eq_of_notMem (notLeft p le_rfl))
  have leftKept (i : Int) (hi : i ∈ borders l (p - 1)) : m' i = m₂ i :=
    right.eq_of_notMem (notRight i (by have := hi.2; omega))
  have small : ∀ i ∈ borders l (p - 1), m₂ i ≤ m₁ p :=
    left.forall_of_forall (P := fun v => v ≤ m₁ p) fun i hi =>
      h.small i hi.1 (by have := hi.2; omega)
  have large : ∀ i ∈ borders (p + 1) r, m₁ p ≤ m' i := by
    refine right.forall_of_forall (P := fun v => m₁ p ≤ v) fun i hi => ?_
    rw [left.eq_of_notMem (notLeft i (by have := hi.1; omega))]
    exact (h.large i (by have := hi.1; omega) hi.2).le
  refine sortedOn_join ?_ rightSorted ?_ ?_
  · intro i j li ij jp
    rw [leftKept i ⟨li, ij.trans jp⟩, leftKept j ⟨li.trans ij, jp⟩]
    exact leftSorted i j li ij jp
  · intro i hi
    rw [leftKept i hi, atPivot]
    exact small i hi
  · rw [atPivot]
    exact large

theorem executes_serially {m₂ : Int → Int} (low : 0 ≤ l) (high : r < 2 ^ 31 - 1)
    (h : Partitioned l r m p m₁) (left : Executes body (stdQsortInner l (p - 1)) m₁ m₂)
    (right : Executes body (stdQsortInner (p + 1) r) m₂ m') :
    Executes body (serially l r p) m₁ m' := by
  have := h.lower
  have := h.upper
  exact executes_int (by omega) (by omega)
    (.call left (executes_int (by omega) (by omega) (.call right (.done m'))))

/-- `std_qsort_inner` sorts the elements between its borders. -/
theorem executes_stdQsortInner {l r : Int} (low : 0 ≤ l) (high : r < 2 ^ 31 - 1) (m : Int → Int) :
    ∃ m', Executes body (stdQsortInner l r) m m' ∧ SortedOn l r m' ∧
      Permuted l r m m' := by
  by_cases order : r > l
  · obtain ⟨p, m₁, parted, continues⟩ := executes_partition order low high m
    have := parted.lower
    have := parted.upper
    obtain ⟨m₂, left, leftSorted, leftPermuted⟩ :=
      executes_stdQsortInner (r := p - 1) low (by omega) m₁
    obtain ⟨m', right, rightSorted, rightPermuted⟩ :=
      executes_stdQsortInner (l := p + 1) (by omega) high m₂
    refine ⟨m', ?_, parted.sortedOn leftPermuted leftSorted rightPermuted rightSorted, ?_⟩
    · rw [stdQsortInner, if_pos order]
      exact continues _ _ (executes_serially low high parted left right)
    · exact parted.permuted.trans ((leftPermuted.mono (borders_subset le_rfl (by omega))).trans
        (rightPermuted.mono (borders_subset (by omega) le_rfl)))
  · refine ⟨m, ?_, ?_, .refl l r m⟩
    · rw [stdQsortInner, if_neg order]
      exact .done m
    · intro i j li ij jr
      rw [show i = j by omega]
termination_by (r + 1 - l).toNat

theorem executes_inTasks {m₂ : Int → Int} (low : 0 ≤ l) (high : r < 2 ^ 31 - 1)
    (h : Partitioned l r m p m₁) (left : Executes body (ompQsortInner l (p - 1)) m₁ m₂)
    (right : Executes body (ompQsortInner (p + 1) r) m₂ m') :
    Executes body (inTasks l r p) m₁ m' := by
  have := h.lower
  have := h.upper
  exact .both (executes_int (by omega) (by omega) (.call left (.done m₂)))
    (executes_int (by omega) (by omega) (.call right (.done m'))) (.done m')

/-- Executed one task after the other, the parallel sort does what the serial one does. -/
theorem executes_both {l r : Int} (low : 0 ≤ l) (high : r < 2 ^ 31 - 1) (m : Int → Int) :
    ∃ m', Executes body (stdQsortInner l r) m m' ∧ Executes body (ompQsortInner l r) m m' := by
  by_cases order : r > l
  · obtain ⟨p, m₁, parted, continues⟩ := executes_partition order low high m
    have := parted.lower
    have := parted.upper
    obtain ⟨m₂, left, left'⟩ := executes_both (r := p - 1) low (by omega) m₁
    obtain ⟨m', right, right'⟩ := executes_both (l := p + 1) (by omega) high m₂
    have serial := executes_serially low high parted left right
    rw [stdQsortInner, if_pos order, ompQsortInner, if_pos order]
    refine ⟨m', continues _ _ serial, continues _ _ (executes_int (by omega) (by omega) ?_)⟩
    split
    · exact executes_inTasks low high parted left' right'
    · exact serial
  · rw [stdQsortInner, if_neg order, ompQsortInner, if_neg order]
    exact ⟨m, .done m, .done m⟩
termination_by (r + 1 - l).toNat

/-! ## Whole sorts -/

theorem confined_stdQsort (len : Int) : Confined region (borders 0 (len - 1)) (stdQsort len) :=
  confined_int (.call (Subset.refl (borders 0 (len - 1))) .done) _

theorem confined_ompQsort (len : Int) : Confined region (borders 0 (len - 1)) (ompQsort len) :=
  confined_int (.call (Subset.refl (borders 0 (len - 1))) .done) _

/-- `std_qsort` ends with its first `len` elements sorted and has accessed no
other ones, and `std_qsort_inner` never changes one outside its borders. -/
theorem std_qsort_sorts (data : Int → Int) (len : Int) (nonneg : 0 ≤ len) (fits : len < 2 ^ 31) :
    (∃ data', Ends body (stdQsort len) data data' ∧ SortedOn 0 (len - 1) data' ∧
        Permuted 0 (len - 1) data data') ∧
      (∀ state i, Reaches body (stdQsort len, data) state → state.1.Accesses i →
        0 ≤ i ∧ i < len) ∧
      ∀ l r state, Reaches body (.call (.stdQsortInner l r) .done, data) state →
        ∀ i, i < l ∨ r < i → state.2 i = data i := by
  refine ⟨?_, ?_, ?_⟩
  · obtain ⟨data', run, sorted, permuted⟩ :=
      executes_stdQsortInner (l := 0) (r := len - 1) le_rfl (by omega) data
    have whole : Executes body (stdQsort len) data data' :=
      executes_int (by omega) (by omega) (.call run (.done data'))
    exact ⟨data', whole.ends respects (confined_stdQsort len), sorted, permuted⟩
  · intro state i reached access
    obtain ⟨confined, _⟩ := Reaches.frame respects reached (confined_stdQsort len)
    obtain ⟨low, high⟩ := confined.mem_of_accesses access
    exact ⟨low, by omega⟩
  · intro l r state reached i outside
    have confined : Confined region (borders l r) (.call (.stdQsortInner l r) .done : Code) :=
      .call (Subset.refl (borders l r)) .done
    refine ((Reaches.frame respects reached confined).2 fun inside => ?_).symm
    obtain ⟨low, high⟩ := inside
    omega

/-- Equal elements, on which a partition that kept its pivot would not end. -/
theorem std_qsort_sorts_equal_elements : 0 ≤ (3 : Int) ∧ (3 : Int) < 2 ^ 31 ∧
    ∃ data', Ends body (stdQsort 3) (fun _ => 7) data' ∧ SortedOn 0 (3 - 1) data' ∧
      Permuted 0 (3 - 1) (fun _ => 7) data' :=
  ⟨by decide, by decide, (std_qsort_sorts (fun _ => 7) 3 (by decide) (by decide)).1⟩

/-- Under every schedule of its tasks `omp_qsort` ends with the array with which
`std_qsort` ends. Only for the least `int` there is no `len - 1`. -/
theorem omp_qsort_eq_std_qsort (data : Int → Int) (len : Int) (low : -2 ^ 31 < len)
    (high : len < 2 ^ 31) : ∃ data', Ends body (stdQsort len) data data' ∧
      Ends body (ompQsort len) data data' := by
  obtain ⟨data', serial, parallel⟩ :=
    executes_both (l := 0) (r := len - 1) le_rfl (by omega) data
  have whole : Executes body (stdQsort len) data data' :=
    executes_int (by omega) (by omega) (.call serial (.done data'))
  have whole' : Executes body (ompQsort len) data data' :=
    executes_int (by omega) (by omega) (.call parallel (.done data'))
  exact ⟨data', whole.ends respects (confined_stdQsort len),
    whole'.ends respects (confined_ompQsort len)⟩

/-- The first call of 2000 elements starts two tasks. -/
theorem omp_qsort_eq_std_qsort_with_tasks : -2 ^ 31 < (2000 : Int) ∧ (2000 : Int) < 2 ^ 31 ∧
    ∃ data', Ends body (stdQsort 2000) (fun i => -i) data' ∧
      Ends body (ompQsort 2000) (fun i => -i) data' :=
  ⟨by decide, by decide, omp_qsort_eq_std_qsort (fun i => -i) 2000 (by decide) (by decide)⟩

end QuickSort
