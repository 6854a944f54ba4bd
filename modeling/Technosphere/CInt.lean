import Mathlib.Algebra.Order.Ring.Int
import Mathlib.Data.List.TakeWhile
import Technosphere.Bytes

/-!
# `int` values in C

Narrowing of wider integers to `int`, and `atoi`. Numbers in decimal notation
are read back by it.
-/

namespace CInt

open Bytes

/-- The value that a wide integer has after it was narrowed to `int`. Unfolding
it where it is only compared would evaluate the modulus. -/
@[irreducible] def toInt32 (x : Int) : Int := x.bmod (2 ^ 32)

theorem toInt32_of_lt {x : Int} (h : -2 ^ 31 ≤ x) (h' : x < 2 ^ 31) : toInt32 x = x := by
  unfold toInt32
  rw [Int.bmod_def]
  omega

theorem toInt32_bounds (x : Int) : -2 ^ 31 ≤ toInt32 x ∧ toInt32 x < 2 ^ 31 := by
  unfold toInt32
  rw [Int.bmod_def]
  omega

theorem toInt32_le {x : Int} (nonneg : 0 ≤ x) : toInt32 x ≤ x := by
  unfold toInt32
  rw [Int.bmod_def]
  omega

/-- A sum of two positive numbers of 31 bits that does not fit becomes negative. -/
theorem toInt32_wraps {x : Int} (large : 2 ^ 31 ≤ x) (small : x < 2 ^ 32) :
    toInt32 x < 0 := by
  unfold toInt32
  rw [Int.bmod_def]
  omega

/-! ## `atoi` -/

/-- The value of a row of decimal digits. -/
def decimal (digits : List UInt8) : Int :=
  digits.foldl (fun n chr => 10 * n + (chr.toNat - 48 : Nat)) 0

/-- `atoi`: `strtol`, which saturates at 64 bits, narrowed to `int`. -/
def atoi (s : List UInt8) : Int :=
  let s := s.dropWhile isspace
  let value := match s with
    | 45 :: digits => -decimal (digits.takeWhile isdigit)
    | 43 :: digits => decimal (digits.takeWhile isdigit)
    | digits => decimal (digits.takeWhile isdigit)
  toInt32 (max (-2 ^ 63) (min value (2 ^ 63 - 1)))

/-- A number in decimal notation. -/
def print (n : Nat) : List UInt8 := text n.repr

example : print 9995 = [57, 57, 57, 53] := by decide

theorem print_eq (n : Nat) :
    print n = (Nat.toDigits 10 n).map fun c => UInt8.ofNat c.toNat := by
  rw [print, text, Nat.toList_repr]

theorem toNat_of_isDigit {c : Char} (h : c.isDigit) :
    48 ≤ c.toNat ∧ c.toNat ≤ 57 ∧ (UInt8.ofNat c.toNat).toNat = c.toNat := by
  have range : 48 ≤ c.toNat ∧ c.toNat ≤ 57 := by
    simpa [Char.isDigit, UInt32.le_iff_toNat_le] using h
  refine ⟨range.1, range.2, ?_⟩
  rw [UInt8.toNat_ofNat']
  omega

theorem isdigit_of_mem_print {n : Nat} {chr : UInt8} (h : chr ∈ print n) : isdigit chr := by
  rw [print_eq] at h
  obtain ⟨c, mem, rfl⟩ := List.mem_map.mp h
  obtain ⟨low, high, same⟩ :=
    toNat_of_isDigit (Nat.isDigit_of_mem_toDigits (by decide) le_rfl mem)
  simp only [isdigit, Bool.and_eq_true, decide_eq_true_eq, UInt8.le_iff_toNat_le, same]
  exact ⟨low, high⟩

theorem print_ne_nil (n : Nat) : print n ≠ [] := by
  rw [print_eq]
  exact List.map_eq_nil_iff.not.mpr Nat.toDigits_ne_nil

theorem decimal_print (n : Nat) : decimal (print n) = n := by
  have digits : ∀ cs : List Char, (∀ c ∈ cs, c.isDigit) → ∀ init : Nat,
      (cs.map fun c => UInt8.ofNat c.toNat).foldl
        (fun (n : Int) chr => 10 * n + (chr.toNat - 48 : Nat)) init =
          Nat.ofDigitChars 10 cs init := by
    intro cs all
    induction cs with
    | nil => simp
    | cons c cs ih =>
        intro init
        obtain ⟨_, _, same⟩ := toNat_of_isDigit (all c List.mem_cons_self)
        have rest := ih fun c mem => all c (List.mem_cons_of_mem _ mem)
        rw [Nat.ofDigitChars_cons, ← rest, List.map_cons, List.foldl_cons, same]
        push_cast
        rfl
  have read := digits (Nat.toDigits 10 n)
    (fun c mem => Nat.isDigit_of_mem_toDigits (by decide) le_rfl mem) 0
  rw [Nat.ofDigitChars_toDigits (by decide) le_rfl] at read
  rw [decimal, print_eq]
  exact read

theorem isspace_of_isdigit {chr : UInt8} (h : isdigit chr) : isspace chr = false := by
  simp only [isdigit, Bool.and_eq_true, decide_eq_true_eq, UInt8.le_iff_toNat_le] at h
  simp only [isspace, Bool.or_eq_false_iff, beq_eq_false_iff_ne, ne_eq, Bool.and_eq_false_iff,
    decide_eq_false_iff_not, UInt8.le_iff_toNat_le, ← UInt8.toNat_inj]
  simp only [UInt8.reduceToNat] at h ⊢
  omega

/-- What was printed is read back, if it fits into an `int`. -/
theorem atoi_print {n : Nat} (h : n < 2 ^ 31) : atoi (print n) = n := by
  obtain ⟨chr, digits, split⟩ := List.exists_cons_of_ne_nil (print_ne_nil n)
  have all : ∀ c ∈ chr :: digits, isdigit c := fun c mem => isdigit_of_mem_print (split ▸ mem)
  have first := all chr List.mem_cons_self
  have notSign : chr ≠ 45 ∧ chr ≠ 43 := by
    constructor <;> rintro rfl <;> exact absurd first (by decide)
  have whole : (chr :: digits).takeWhile isdigit = chr :: digits :=
    List.takeWhile_eq_self_iff.mpr all
  have value := decimal_print n
  rw [split] at value
  rw [atoi, split, List.dropWhile_cons_of_neg (by simp [isspace_of_isdigit first])]
  split
  · rename_i _ same
    exact absurd (List.cons.inj same).1 notSign.1
  · rename_i _ same
    exact absurd (List.cons.inj same).1 notSign.2
  · rw [whole, value, min_eq_left (by omega), max_eq_right (by omega),
      toInt32_of_lt (by omega) (by omega)]

end CInt
