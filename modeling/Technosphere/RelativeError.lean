import Mathlib.Algebra.Order.BigOperators.Group.Finset
import Mathlib.Algebra.Order.Field.Basic
import Mathlib.Algebra.Order.Ring.Pow
import Mathlib.Tactic.FieldSimp
import Mathlib.Tactic.Linarith
import Mathlib.Tactic.Positivity
import Mathlib.Tactic.Ring

/-!
# Nonnegative numbers up to a number of roundings

`Near u n x y` says that `x` and `y` are `n` factors `1 - u` apart at most, in
either direction. Each operation with relative error `u` costs one of them, and
the relation is kept by sums, products and quotients, so the errors of a
computation are counted along its operations.
-/

namespace RelativeError

variable {K : Type*} [Field K] [LinearOrder K] [IsStrictOrderedRing K]

/-- A relative error that leaves a sign as it is. -/
def Roundoff (K : Type*) [Field K] [LinearOrder K] := { u : K // 0 ≤ u ∧ u < 1 }

namespace Roundoff

variable (u : Roundoff K) (n m : Nat)

/-- What is left of a number after `n` roundings, at least. -/
def factor : K := (1 - u.val) ^ n

theorem factor_pos : 0 < u.factor n := pow_pos (sub_pos.mpr u.2.2) n

theorem factor_le_one : u.factor n ≤ 1 :=
  pow_le_one₀ (sub_nonneg.mpr u.2.2.le) (sub_le_self _ u.2.1)

omit [IsStrictOrderedRing K] in
@[simp] theorem factor_zero : u.factor 0 = 1 := pow_zero _

omit [IsStrictOrderedRing K] in
theorem factor_add : u.factor (n + m) = u.factor n * u.factor m := pow_add _ _ _

theorem factor_anti (h : n ≤ m) : u.factor m ≤ u.factor n :=
  pow_le_pow_of_le_one (sub_nonneg.mpr u.2.2.le) (sub_le_self _ u.2.1) h

/-- Many roundings take away their number of errors at most. -/
theorem le_factor : 1 - n * u.val ≤ u.factor n := by
  have bernoulli := one_add_mul_le_pow (a := -u.val) (by linarith [u.2.2]) n
  rw [factor, sub_eq_add_neg 1 u.val]
  linarith

end Roundoff

/-- `x` and `y` are the same up to `n` roundings. -/
structure Near (u : Roundoff K) (n : Nat) (x y : K) : Prop where
  le : x * u.factor n ≤ y
  ge : y * u.factor n ≤ x

namespace Near

variable {u : Roundoff K} {n m : Nat} {x y z x' y' : K}

theorem refl (h : 0 ≤ x) : Near u n x x :=
  ⟨mul_le_of_le_one_right h (u.factor_le_one n), mul_le_of_le_one_right h (u.factor_le_one n)⟩

omit [IsStrictOrderedRing K] in
theorem symm (h : Near u n x y) : Near u n y x := ⟨h.ge, h.le⟩

theorem nonneg (h : Near u n x y) (hx : 0 ≤ x) : 0 ≤ y :=
  (mul_nonneg hx (u.factor_pos n).le).trans h.le

theorem pos (h : Near u n x y) (hx : 0 < x) : 0 < y := (mul_pos hx (u.factor_pos n)).trans_le h.le

theorem mono (h : Near u n x y) (hx : 0 ≤ x) (more : n ≤ m) : Near u m x y where
  le := (mul_le_mul_of_nonneg_left (u.factor_anti n m more) hx).trans h.le
  ge := (mul_le_mul_of_nonneg_left (u.factor_anti n m more) (h.nonneg hx)).trans h.ge

theorem trans (h : Near u n x y) (h' : Near u m y z) : Near u (n + m) x z where
  le := by
    rw [u.factor_add, ← mul_assoc]
    exact (mul_le_mul_of_nonneg_right h.le (u.factor_pos m).le).trans h'.le
  ge := by
    rw [Nat.add_comm, u.factor_add, ← mul_assoc]
    exact (mul_le_mul_of_nonneg_right h'.ge (u.factor_pos n).le).trans h.ge

/-- One operation with this relative error. -/
theorem of_abs_sub_le (hx : 0 ≤ x) (h : |y - x| ≤ u.val * x) : Near u 1 x y := by
  obtain ⟨low, high⟩ := abs_le.mp h
  have one : u.factor 1 = 1 - u.val := pow_one _
  refine ⟨?_, ?_⟩
  · rw [one]
    linarith
  · have left : 0 ≤ 1 - u.val := sub_nonneg.mpr u.2.2.le
    calc y * u.factor 1
        ≤ (x + u.val * x) * (1 - u.val) := by
          rw [one]
          exact mul_le_mul_of_nonneg_right (by linarith) left
      _ = x - u.val * u.val * x := by ring
      _ ≤ x := sub_le_self x (mul_nonneg (mul_self_nonneg _) hx)

theorem add (h : Near u n x y) (h' : Near u n x' y') : Near u n (x + x') (y + y') where
  le := by
    rw [add_mul]
    exact add_le_add h.le h'.le
  ge := by
    rw [add_mul]
    exact add_le_add h.ge h'.ge

theorem mul (h : Near u n x y) (h' : Near u m x' y') (hx : 0 ≤ x) (hx' : 0 ≤ x') :
    Near u (n + m) (x * x') (y * y') where
  le := by
    rw [u.factor_add, mul_mul_mul_comm]
    exact mul_le_mul h.le h'.le (mul_nonneg hx' (u.factor_pos m).le) (h.nonneg hx)
  ge := by
    rw [u.factor_add, mul_mul_mul_comm]
    exact mul_le_mul h.ge h'.ge (mul_nonneg (h'.nonneg hx') (u.factor_pos m).le) hx

theorem div (h : Near u n x y) (h' : Near u m x' y') (hx : 0 ≤ x) (hx' : 0 < x') :
    Near u (n + m) (x / x') (y / y') where
  le := by
    rw [u.factor_add, div_mul_eq_mul_div, div_le_div_iff₀ hx' (h'.pos hx')]
    calc x * (u.factor n * u.factor m) * y'
        = x * u.factor n * (y' * u.factor m) := by ring
      _ ≤ y * x' := mul_le_mul h.le h'.ge
          (mul_nonneg (h'.pos hx').le (u.factor_pos m).le) (h.nonneg hx)
  ge := by
    rw [u.factor_add, div_mul_eq_mul_div, div_le_div_iff₀ (h'.pos hx') hx']
    calc y * (u.factor n * u.factor m) * x'
        = y * u.factor n * (x' * u.factor m) := by ring
      _ ≤ x * y' := mul_le_mul h.ge h'.le (mul_nonneg hx'.le (u.factor_pos m).le) hx

/-- Up to that many roundings the numbers are within a factor of two. -/
theorem le_two_mul (h : Near u n x y) (hx : 0 ≤ x) (few : 2 * (n * u.val) ≤ 1) : y ≤ 2 * x := by
  have half : y * (1 / 2) ≤ y * u.factor n :=
    mul_le_mul_of_nonneg_left (by linarith [u.le_factor n]) (h.nonneg hx)
  linarith [h.ge]

/-- How far apart they are then. -/
theorem abs_sub_le (h : Near u n x y) (hx : 0 ≤ x) (few : 2 * (n * u.val) ≤ 1) :
    |y - x| ≤ 2 * (n * u.val) * x := by
  have lost : 0 ≤ n * u.val * x := mul_nonneg (mul_nonneg n.cast_nonneg u.2.1) hx
  have least := mul_le_mul_of_nonneg_left (u.le_factor n) hx
  have most := mul_le_mul_of_nonneg_left (u.le_factor n) (h.nonneg hx)
  have double := mul_le_mul_of_nonneg_right (h.le_two_mul hx few)
    (mul_nonneg n.cast_nonneg u.2.1 : 0 ≤ n * u.val)
  refine abs_le.mpr ⟨?_, ?_⟩
  · linarith [h.le]
  · linarith [h.ge]

end Near

end RelativeError
