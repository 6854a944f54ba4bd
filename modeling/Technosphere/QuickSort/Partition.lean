import Mathlib.Logic.Equiv.Basic
import Technosphere.QuickSort.Code

/-!
# The partition

The scan includes the pivot, which is the last element, so it ends at `less`:
what is not greater stands before it and what is greater behind it. Every swap
is a permutation, also that of an element with itself.
-/

namespace QuickSort

open ForkJoin Job Set

/-- The elements between the borders are permuted, and no others. -/
def Permuted (l r : Int) (m m' : Int → Int) : Prop :=
  ∃ σ : Equiv.Perm Int, (∀ i ∉ borders l r, σ i = i) ∧ ∀ i, m' i = m (σ i)

namespace Permuted

variable {l r l' r' : Int} {m m₁ m' : Int → Int}

theorem refl (l r : Int) (m : Int → Int) : Permuted l r m m :=
  ⟨Equiv.refl Int, fun _ _ => rfl, fun _ => rfl⟩

theorem trans (h : Permuted l r m m₁) (h' : Permuted l r m₁ m') : Permuted l r m m' := by
  obtain ⟨σ, fixed, moved⟩ := h
  obtain ⟨τ, fixed', moved'⟩ := h'
  refine ⟨τ.trans σ, fun i outside => ?_, fun i => ?_⟩
  · rw [Equiv.trans_apply, fixed' i outside, fixed i outside]
  · rw [moved', moved, Equiv.trans_apply]

theorem mono (h : Permuted l' r' m m') (sub : borders l' r' ⊆ borders l r) : Permuted l r m m' :=
  let ⟨σ, fixed, moved⟩ := h
  ⟨σ, fun i outside => fixed i fun inside => outside (sub inside), moved⟩

theorem eq_of_notMem (h : Permuted l r m m') {i : Int} (outside : i ∉ borders l r) :
    m' i = m i := by
  obtain ⟨σ, fixed, moved⟩ := h
  rw [moved, fixed i outside]

/-- What holds of all elements still holds of them. -/
theorem forall_of_forall (h : Permuted l r m m') {P : Int → Prop}
    (all : ∀ i ∈ borders l r, P (m i)) : ∀ i ∈ borders l r, P (m' i) := by
  obtain ⟨σ, fixed, moved⟩ := h
  intro i inside
  rw [moved]
  refine all _ ?_
  by_contra outside
  exact outside ((σ.injective (fixed _ outside)).symm ▸ inside)

theorem swap {i j : Int} (hi : i ∈ borders l r) (hj : j ∈ borders l r) :
    Permuted l r m (Function.update (Function.update m i (m j)) j (m i)) := by
  refine ⟨Equiv.swap i j, fun k outside => ?_, fun k => ?_⟩
  · exact Equiv.swap_apply_of_ne_of_ne (fun same => outside (same ▸ hi))
      (fun same => outside (same ▸ hj))
  · by_cases atJ : k = j
    · rw [atJ, Function.update_self, Equiv.swap_apply_right]
    by_cases atI : k = i
    · rw [atI, Function.update_of_ne (atI ▸ atJ), Function.update_self, Equiv.swap_apply_left]
    · rw [Function.update_of_ne atJ, Function.update_of_ne atI,
        Equiv.swap_apply_of_ne_of_ne atI atJ]

end Permuted

/-- The partition of `m` between the borders: the pivot is at `p`. -/
structure Partitioned (l r : Int) (m : Int → Int) (p : Int) (m' : Int → Int) : Prop where
  lower : l ≤ p
  upper : p ≤ r
  small : ∀ i, l ≤ i → i ≤ p → m' i ≤ m' p
  large : ∀ i, p < i → i ≤ r → m' p < m' i
  permuted : Permuted l r m m'

/-- The loop invariant: `less` ends the elements that are not greater than the
pivot, and behind it are greater ones up to `more`. -/
structure Scanned (l r : Int) (m : Int → Int) (pivot more less : Int) (m' : Int → Int) : Prop where
  lower : l - 1 ≤ less
  order : less < more
  upper : more ≤ r + 1
  small : ∀ i, l ≤ i → i ≤ less → m' i ≤ pivot
  large : ∀ i, less < i → i < more → pivot < m' i
  waiting : more ≤ r → m' r = pivot
  placed : r < more → l ≤ less ∧ m' less = pivot
  permuted : Permuted l r m m'

namespace Scanned

variable {l r pivot more less : Int} {m m' : Int → Int}

theorem start (order : l < r) (m : Int → Int) : Scanned l r m (m r) l (l - 1) m where
  lower := le_rfl
  order := by omega
  upper := by omega
  small i low high := by omega
  large i low high := by omega
  waiting _ := rfl
  placed passed := by omega
  permuted := .refl l r m

/-- A greater element stays where it is. -/
theorem skip (h : Scanned l r m pivot more less m') (inside : more ≤ r)
    (greater : ¬ m' more ≤ pivot) : Scanned l r m pivot (more + 1) less m' where
  lower := h.lower
  order := by have := h.order; omega
  upper := by omega
  small := h.small
  large i low high := by
    rcases eq_or_ne i more with rfl | other
    · exact not_le.mp greater
    · exact h.large i low (by omega)
  waiting _ := h.waiting inside
  placed passed := by
    have last : more = r := by omega
    exact absurd (last ▸ h.waiting inside).le greater
  permuted := h.permuted

/-- Another element is exchanged with the first greater one. -/
theorem swap (h : Scanned l r m pivot more less m') (inside : more ≤ r)
    (small : m' more ≤ pivot) : Scanned l r m pivot (more + 1) (less + 1)
      (Function.update (Function.update m' (less + 1) (m' more)) more (m' (less + 1))) := by
  obtain ⟨lower, order, upper, smaller, larger, waiting, placed, permuted⟩ := h
  have atLess : Function.update (Function.update m' (less + 1) (m' more)) more (m' (less + 1))
      (less + 1) = m' more := by
    rcases eq_or_ne (less + 1) more with same | other
    · rw [same, Function.update_self]
    · rw [Function.update_of_ne other, Function.update_self]
  have elsewhere (i : Int) (other : i ≠ less + 1) (other' : i ≠ more) :
      Function.update (Function.update m' (less + 1) (m' more)) more (m' (less + 1)) i = m' i := by
    rw [Function.update_of_ne other', Function.update_of_ne other]
  refine ⟨by omega, by omega, by omega, ?_, ?_, ?_, ?_, ?_⟩
  · intro i low high
    rcases eq_or_ne i (less + 1) with rfl | other
    · rw [atLess]
      exact small
    · rw [elsewhere i other (by omega)]
      exact smaller i low (by omega)
  · intro i low high
    rcases eq_or_ne i more with rfl | other
    · rw [Function.update_self]
      exact larger _ (by omega) (by omega)
    · rw [elsewhere i (by omega) other]
      exact larger i (by omega) (by omega)
  · intro left
    rw [elsewhere r (by omega) (by omega)]
    exact waiting inside
  · intro passed
    have last : more = r := by omega
    refine ⟨by omega, ?_⟩
    rw [atLess, last]
    exact waiting inside
  · exact permuted.trans (.swap ⟨by omega, by omega⟩ ⟨by omega, inside⟩)

theorem partitioned (h : Scanned l r m pivot more less m') (passed : r < more) :
    Partitioned l r m less m' := by
  obtain ⟨low, atLess⟩ := h.placed passed
  have order := h.order
  have upper := h.upper
  refine ⟨low, by omega, ?_, ?_, h.permuted⟩
  · rw [atLess]
    exact h.small
  · intro i above inside
    rw [atLess]
    exact h.large i above (by omega)

end Scanned

variable {l r : Int} {m m' : Int → Int}

theorem executes_int {value : Int} {code : Code} (low : -2 ^ 31 ≤ value) (high : value < 2 ^ 31)
    (h : Executes body code m m') : Executes body (int value code) m m' := by
  rw [int, if_pos ⟨low, high⟩]
  exact h

theorem executes_scan {pivot more less : Int} {m₁ : Int → Int} (low : 0 ≤ l)
    (high : r < 2 ^ 31 - 1) (h : Scanned l r m pivot more less m₁) :
    ∃ p m₂, Partitioned l r m p m₂ ∧ ∀ rest m', Executes body (rest p) m₂ m' →
      Executes body (scan pivot r rest more less) m₁ m' := by
  have := h.lower
  have := h.order
  have := h.upper
  by_cases inside : more ≤ r
  · by_cases small : m₁ more ≤ pivot
    · obtain ⟨p, m₂, parted, continues⟩ := executes_scan low high (h.swap inside small)
      refine ⟨p, m₂, parted, fun rest m' run => ?_⟩
      rw [scan, if_pos inside]
      refine .read ?_
      rw [if_pos small]
      refine executes_int (by omega) (by omega) (.read (.read (.write (.write ?_))))
      exact executes_int (by omega) (by omega) (continues rest m' run)
    · obtain ⟨p, m₂, parted, continues⟩ := executes_scan low high (h.skip inside small)
      refine ⟨p, m₂, parted, fun rest m' run => ?_⟩
      rw [scan, if_pos inside]
      refine .read ?_
      rw [if_neg small]
      exact executes_int (by omega) (by omega) (continues rest m' run)
  · refine ⟨less, m₁, h.partitioned (by omega), fun rest m' run => ?_⟩
    rw [scan, if_neg inside]
    exact run
termination_by (r + 1 - more).toNat

/-- The contract of the partition, whatever follows it. -/
theorem executes_partition (order : l < r) (low : 0 ≤ l) (high : r < 2 ^ 31 - 1)
    (m : Int → Int) : ∃ p m₁, Partitioned l r m p m₁ ∧ ∀ rest m', Executes body (rest p) m₁ m' →
      Executes body (partition l r rest) m m' := by
  obtain ⟨p, m₁, parted, continues⟩ := executes_scan low high (Scanned.start order m)
  exact ⟨p, m₁, parted, fun rest m' run =>
    .read (executes_int (by omega) (by omega) (continues rest m' run))⟩

end QuickSort
