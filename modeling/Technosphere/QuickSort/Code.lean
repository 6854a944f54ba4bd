import Mathlib.Algebra.Order.Ring.Int
import Technosphere.ForkJoin.Footprint

/-!
# The serial and the parallel sort

The array is a memory of `Int` cells, read and written one element at a time. An
`int` computation that overflows is undefined. Both sorts partition the elements
between the borders in the same way, with a scan up to and with the pivot.

Whatever the elements are, a call keeps to those between its borders.
-/

namespace QuickSort

open ForkJoin Job Set

inductive Procedure where
  | stdQsortInner (leftBorder rightBorder : Int)
  | ompQsortInner (leftBorder rightBorder : Int)

abbrev Code := Job Procedure Int Int

/-- An `int` value is computed before `rest`. -/
def int (value : Int) (rest : Code) : Code :=
  if -2 ^ 31 ≤ value ∧ value < 2 ^ 31 then rest else .undefined

/-- The loop over `more`, and then `rest` with the last value of `less`. -/
def scan (pivot rightBorder : Int) (rest : Int → Code) (more less : Int) : Code :=
  if more ≤ rightBorder then
    .read more fun elem =>
      if elem ≤ pivot then
        int (less + 1) <|
          .read (less + 1) fun tmp =>
            .read more fun elem =>
              .write (less + 1) elem <|
                .write more tmp <|
                  int (more + 1) <| scan pivot rightBorder rest (more + 1) (less + 1)
      else int (more + 1) <| scan pivot rightBorder rest (more + 1) less
  else rest less
termination_by (rightBorder + 1 - more).toNat

def partition (leftBorder rightBorder : Int) (rest : Int → Code) : Code :=
  .read rightBorder fun pivot =>
    int (leftBorder - 1) <| scan pivot rightBorder rest leftBorder (leftBorder - 1)

/-- Both parts in the same thread, with `std_qsort_inner`. -/
def serially (leftBorder rightBorder less : Int) : Code :=
  int (less - 1) <| .call (.stdQsortInner leftBorder (less - 1)) <|
    int (less + 1) <| .call (.stdQsortInner (less + 1) rightBorder) .done

def stdQsortInner (leftBorder rightBorder : Int) : Code :=
  if rightBorder > leftBorder then
    partition leftBorder rightBorder (serially leftBorder rightBorder)
  else .done

/-- One task for each part, and a wait for both. -/
def inTasks (leftBorder rightBorder less : Int) : Code :=
  .both (int (less - 1) <| .call (.ompQsortInner leftBorder (less - 1)) .done)
    (int (less + 1) <| .call (.ompQsortInner (less + 1) rightBorder) .done) .done

def ompQsortInner (leftBorder rightBorder : Int) : Code :=
  if rightBorder > leftBorder then
    partition leftBorder rightBorder fun less =>
      int (rightBorder - leftBorder) <|
        if rightBorder - leftBorder > 1000 then inTasks leftBorder rightBorder less
        else serially leftBorder rightBorder less
  else .done

def body : Procedure → Code
  | .stdQsortInner leftBorder rightBorder => stdQsortInner leftBorder rightBorder
  | .ompQsortInner leftBorder rightBorder => ompQsortInner leftBorder rightBorder

def stdQsort (len : Int) : Code :=
  int (len - 1) <| .call (.stdQsortInner 0 (len - 1)) .done

/-- `single` lets one thread start; the threads share the tasks. -/
def ompQsort (len : Int) : Code :=
  int (len - 1) <| .call (.ompQsortInner 0 (len - 1)) .done

/-! ## Footprints -/

/-- The indices from one border to the other. -/
def borders (l r : Int) : Set Int := {i | l ≤ i ∧ i ≤ r}

theorem borders_subset {l r l' r' : Int} (left : l ≤ l') (right : r' ≤ r) :
    borders l' r' ⊆ borders l r :=
  fun _ inside => ⟨left.trans inside.1, inside.2.trans right⟩

def region : Procedure → Set Int
  | .stdQsortInner leftBorder rightBorder => borders leftBorder rightBorder
  | .ompQsortInner leftBorder rightBorder => borders leftBorder rightBorder

variable {l r : Int} {rest : Int → Code}

theorem confined_int {S : Set Int} {code : Code} (h : Confined region S code) (value : Int) :
    Confined region S (int value code) := by
  rw [int]
  split
  · exact h
  · exact .undefined

/-- Whatever is read, the scan stays between the borders. -/
theorem confined_scan (pivot : Int)
    (h : ∀ less, l - 1 ≤ less → less ≤ r → Confined region (borders l r) (rest less))
    {more less : Int} (low : l - 1 ≤ less) (order : less < more) (high : more ≤ r + 1) :
    Confined region (borders l r) (scan pivot r rest more less) := by
  rw [scan]
  split
  · rename_i inside
    have here : more ∈ borders l r := ⟨by omega, inside⟩
    have target : less + 1 ∈ borders l r := ⟨by omega, by omega⟩
    refine .read here fun elem => ?_
    split
    · refine confined_int (.read target fun tmp => .read here fun elem => ?_) _
      refine .write target (.write here (confined_int ?_ _))
      exact confined_scan pivot h (by omega) (by omega) (by omega)
    · exact confined_int (confined_scan pivot h low (by omega) (by omega)) _
  · exact h less low (by omega)
termination_by (r + 1 - more).toNat

theorem confined_partition (order : l < r)
    (h : ∀ less, l - 1 ≤ less → less ≤ r → Confined region (borders l r) (rest less)) :
    Confined region (borders l r) (partition l r rest) :=
  .read ⟨order.le, le_rfl⟩ fun pivot =>
    confined_int (confined_scan pivot h le_rfl (by omega) (by omega)) _

theorem confined_serially {less : Int} (low : l - 1 ≤ less) (high : less ≤ r) :
    Confined region (borders l r) (serially l r less) :=
  confined_int (.call (borders_subset le_rfl (by omega))
    (confined_int (.call (borders_subset (by omega) le_rfl) .done) _)) _

theorem confined_inTasks {less : Int} (low : l - 1 ≤ less) (high : less ≤ r) :
    Confined region (borders l r) (inTasks l r less) := by
  have before : borders l (less - 1) ⊆ borders l r := borders_subset le_rfl (by omega)
  have behind : borders (less + 1) r ⊆ borders l r := borders_subset (by omega) le_rfl
  refine .both before behind ?_ ?_ ?_ .done
  · rw [Set.disjoint_left]
    rintro i ⟨_, below⟩ ⟨above, _⟩
    omega
  · exact confined_int (.call (Subset.refl (borders l (less - 1))) .done) _
  · exact confined_int (.call (Subset.refl (borders (less + 1) r)) .done) _

/-- Every call keeps to the elements between its borders, also those of all tasks. -/
theorem respects : Respects region body := by
  rintro (⟨l, r⟩ | ⟨l, r⟩)
  · change Confined region (borders l r) (stdQsortInner l r)
    rw [stdQsortInner]
    split
    · rename_i order
      exact confined_partition order fun less low high => confined_serially low high
    · exact .done
  · change Confined region (borders l r) (ompQsortInner l r)
    rw [ompQsortInner]
    split
    · rename_i order
      refine confined_partition order fun less low high => confined_int ?_ _
      split
      · exact confined_inTasks low high
      · exact confined_serially low high
    · exact .done

end QuickSort
