import Mathlib.Data.Int.Log
import Mathlib.Data.Rat.Floor
import Technosphere.RelativeError

/-!
# Floating-point numbers

Binary numbers of a fixed number of digits, rounded to nearest with ties to
even. `round` is defined where the rounded number is `0` or in the range of the
normal numbers, so a computation that has a result neither overflows nor
underflows on its way.
-/

namespace FloatingPoint

open RelativeError

/-- The nearest integer, an even one if there are two. -/
def roundEven (q : ℚ) : ℤ :=
  if q - ⌊q⌋ < 1 / 2 ∨ q - ⌊q⌋ = 1 / 2 ∧ ⌊q⌋ % 2 = 0 then ⌊q⌋ else ⌊q⌋ + 1

example : roundEven (5 / 2) = 2 := by decide +kernel

section Integers

variable {q : ℚ} {n : ℤ}

theorem le_roundEven (h : n ≤ q) : n ≤ roundEven q := by
  have below : n ≤ ⌊q⌋ := Int.le_floor.mpr h
  rw [roundEven]
  split <;> omega

theorem roundEven_le (h : q ≤ n) : roundEven q ≤ n := by
  rw [roundEven]
  split
  · exact Int.floor_le_iff.mpr (h.trans_lt (lt_add_one _))
  · rename_i up
    have positive : 0 < q - ⌊q⌋ := by
      by_contra none
      exact up (.inl ((not_lt.mp none).trans_lt one_half_pos))
    have lt : (⌊q⌋ : ℚ) < n := (sub_pos.mp positive).trans_le h
    exact Int.add_one_le_of_lt (Int.cast_lt.mp lt)

@[simp] theorem roundEven_intCast : roundEven n = n :=
  le_antisymm (roundEven_le le_rfl) (le_roundEven le_rfl)

theorem abs_roundEven_sub_le (q : ℚ) : |roundEven q - q| ≤ 1 / 2 := by
  have below := Int.floor_le q
  have above := Int.lt_floor_add_one q
  rw [roundEven, abs_le]
  split
  · rename_i down
    constructor <;> rcases down with down | ⟨down, _⟩ <;> linarith
  · rename_i up
    have half : 1 / 2 ≤ q - ⌊q⌋ := not_lt.mp fun down => up (.inl down)
    push_cast
    constructor <;> linarith

theorem abs_roundEven_le (h : |q| ≤ n) : |roundEven q| ≤ n := by
  obtain ⟨low, high⟩ := abs_le.mp h
  rw [← Int.cast_neg] at low
  exact abs_le.mpr ⟨le_roundEven low, roundEven_le high⟩

theorem le_abs_roundEven (h : n ≤ |q|) : n ≤ |roundEven q| := by
  rcases le_abs.mp h with right | left
  · exact (le_roundEven right).trans (le_abs_self _)
  · have low : q ≤ ((-n : ℤ) : ℚ) := by
      push_cast
      linarith
    have rounded := roundEven_le low
    exact (by omega : n ≤ -roundEven q).trans (neg_le_abs _)

end Integers

/-- Numbers of `precision` binary digits from `2 ^ minExponent` up to
`2 ^ maxExponent`. -/
structure Format where
  precision : Nat
  minExponent : Int
  maxExponent : Int
  positive : 0 < precision

def binary64 : Format := ⟨53, -1022, 1024, by decide⟩

namespace Format

variable (f : Format) {x : ℚ}

/-- The relative error of a rounding. -/
def roundoff : Roundoff ℚ :=
  ⟨1 / 2 ^ f.precision, by positivity,
    (div_lt_one (by positivity)).mpr (one_lt_pow₀ one_lt_two f.positive.ne')⟩

/-- `x` has no more digits than the format. -/
def Digits (x : ℚ) : Prop := ∃ m e : ℤ, |m| < 2 ^ f.precision ∧ x = m * 2 ^ e

def InRange (x : ℚ) : Prop := x = 0 ∨ 2 ^ f.minExponent ≤ |x| ∧ |x| < 2 ^ f.maxExponent

instance (x : ℚ) : Decidable (f.InRange x) := inferInstanceAs (Decidable (_ ∨ _))

/-- The exponent of the first digit. -/
def exponent (x : ℚ) : ℤ := Int.log 2 |x|

/-- The unit of the last digit. -/
def ulp (x : ℚ) : ℚ := 2 ^ (exponent x - (f.precision - 1 : ℤ))

def nearest (x : ℚ) : ℚ := roundEven (x / f.ulp x) * f.ulp x

theorem ulp_pos (x : ℚ) : 0 < f.ulp x := zpow_pos two_pos _

theorem two_zpow_exponent_le (h : x ≠ 0) : (2 : ℚ) ^ exponent x ≤ |x| := by
  simpa [exponent] using Int.zpow_log_le_self one_lt_two (abs_pos.mpr h)

theorem lt_two_zpow_exponent (x : ℚ) : |x| < 2 ^ (exponent x + 1) := by
  simpa [exponent] using Int.lt_zpow_succ_log_self one_lt_two |x|

theorem abs_div_ulp (x : ℚ) : |x / f.ulp x| = |x| / f.ulp x := by
  rw [abs_div, abs_of_pos (f.ulp_pos x)]

/-- Scaled by its last digit a number has `precision` digits in front of the point. -/
theorem le_abs_div_ulp (h : x ≠ 0) : ((2 ^ (f.precision - 1) : ℤ) : ℚ) ≤ |x / f.ulp x| := by
  rw [f.abs_div_ulp, le_div_iff₀ (f.ulp_pos x)]
  refine le_of_eq_of_le ?_ (two_zpow_exponent_le h)
  rw [ulp, Int.cast_pow, Int.cast_ofNat, ← zpow_natCast, ← zpow_add₀ two_ne_zero]
  have positive := f.positive
  congr 1
  omega

theorem abs_div_ulp_le (x : ℚ) : |x / f.ulp x| ≤ ((2 ^ f.precision : ℤ) : ℚ) := by
  rw [f.abs_div_ulp, div_le_iff₀ (f.ulp_pos x)]
  refine (lt_two_zpow_exponent x).le.trans_eq ?_
  rw [ulp, Int.cast_pow, Int.cast_ofNat, ← zpow_natCast, ← zpow_add₀ two_ne_zero]
  congr 1
  omega

/-- A rounding changes half a unit of the last digit at most. -/
theorem abs_nearest_sub_le (x : ℚ) : |f.nearest x - x| ≤ f.roundoff.val * |x| := by
  by_cases zero : x = 0
  · subst zero
    simp [nearest, show roundEven 0 = 0 from roundEven_intCast (n := 0)]
  have scaled : f.nearest x - x = (roundEven (x / f.ulp x) - x / f.ulp x) * f.ulp x := by
    rw [sub_mul, div_mul_cancel₀ _ (f.ulp_pos x).ne', nearest]
  have half : 1 / 2 * f.ulp x = f.roundoff.val * 2 ^ exponent x := by
    rw [ulp, roundoff, zpow_sub₀ two_ne_zero, zpow_sub_one₀ two_ne_zero, zpow_natCast]
    field_simp
  rw [scaled, abs_mul, abs_of_pos (f.ulp_pos x)]
  calc |roundEven (x / f.ulp x) - x / f.ulp x| * f.ulp x
      ≤ 1 / 2 * f.ulp x :=
        mul_le_mul_of_nonneg_right (abs_roundEven_sub_le _) (f.ulp_pos x).le
    _ = f.roundoff.val * 2 ^ exponent x := half
    _ ≤ f.roundoff.val * |x| :=
        mul_le_mul_of_nonneg_left (two_zpow_exponent_le zero) f.roundoff.2.1

theorem digits_nearest (x : ℚ) : f.Digits (f.nearest x) := by
  have bound := abs_roundEven_le (f.abs_div_ulp_le x)
  by_cases carry : |roundEven (x / f.ulp x)| = 2 ^ f.precision
  · -- the rounding carried into a further digit, so the last one is `0`
    obtain ⟨s, one, sign⟩ : ∃ s : ℤ, |s| = 1 ∧ roundEven (x / f.ulp x) = s * 2 ^ f.precision := by
      rcases abs_eq_abs.mp (carry.trans (abs_of_pos (by positivity)).symm) with plus | minus
      · exact ⟨1, abs_one, plus.trans (one_mul _).symm⟩
      · exact ⟨-1, by simp, minus.trans (neg_one_mul _).symm⟩
    refine ⟨s, exponent x - (f.precision - 1 : ℤ) + f.precision, ?_, ?_⟩
    · rw [one]
      exact one_lt_pow₀ one_lt_two f.positive.ne'
    · rw [nearest, sign, ulp, zpow_add₀ two_ne_zero, zpow_natCast]
      push_cast
      ring
  · exact ⟨_, _, lt_of_le_of_ne bound carry, rfl⟩

@[simp] theorem nearest_zero : f.nearest 0 = 0 := by
  have zero : roundEven 0 = 0 := roundEven_intCast (n := 0)
  rw [nearest, zero_div, zero, Int.cast_zero, zero_mul]

/-- What has no more digits stays as it is. -/
theorem nearest_of_digits (h : f.Digits x) : f.nearest x = x := by
  obtain ⟨m, e, few, rfl⟩ := h
  by_cases zero : (m : ℚ) * 2 ^ e = 0
  · rw [zero, nearest_zero]
  have bound : |(m : ℚ) * 2 ^ e| < 2 ^ (f.precision + e : ℤ) := by
    rw [abs_mul, abs_of_pos (zpow_pos (two_pos (α := ℚ)) e), zpow_add₀ two_ne_zero, zpow_natCast]
    exact mul_lt_mul_of_pos_right (by exact_mod_cast few) (zpow_pos two_pos e)
  have short : exponent ((m : ℚ) * 2 ^ e) < f.precision + e :=
    (Int.lt_zpow_iff_log_lt one_lt_two (abs_pos.mpr zero)).mp (by simpa using bound)
  obtain ⟨k, last⟩ : ∃ k : ℕ, e = exponent ((m : ℚ) * 2 ^ e) - (f.precision - 1 : ℤ) + k :=
    ⟨(e - (exponent ((m : ℚ) * 2 ^ e) - (f.precision - 1 : ℤ))).toNat, by omega⟩
  have scaled : (m : ℚ) * 2 ^ e / f.ulp ((m : ℚ) * 2 ^ e) = ((m * 2 ^ k : ℤ) : ℚ) := by
    rw [div_eq_iff (f.ulp_pos _).ne', ulp]
    nth_rewrite 1 [last]
    rw [zpow_add₀ two_ne_zero, zpow_natCast]
    push_cast
    ring
  rw [nearest, scaled, roundEven_intCast, ← scaled, div_mul_cancel₀ _ (f.ulp_pos _).ne']

theorem two_zpow_exponent_le_nearest (h : x ≠ 0) : 2 ^ exponent x ≤ |f.nearest x| := by
  have rounded : (2 ^ (f.precision - 1) : ℚ) ≤ |(roundEven (x / f.ulp x) : ℚ)| := by
    exact_mod_cast le_abs_roundEven (f.le_abs_div_ulp h)
  have first : (2 : ℚ) ^ exponent x = 2 ^ (f.precision - 1) * f.ulp x := by
    rw [ulp, ← zpow_natCast, ← zpow_add₀ two_ne_zero]
    have positive := f.positive
    congr 1
    omega
  rw [first, nearest, abs_mul, abs_of_pos (f.ulp_pos x)]
  exact mul_le_mul_of_nonneg_right rounded (f.ulp_pos x).le

theorem abs_nearest_le (x : ℚ) : |f.nearest x| ≤ 2 ^ (exponent x + 1) := by
  have rounded : |(roundEven (x / f.ulp x) : ℚ)| ≤ 2 ^ f.precision := by
    exact_mod_cast abs_roundEven_le (f.abs_div_ulp_le x)
  have next : (2 : ℚ) ^ (exponent x + 1) = 2 ^ f.precision * f.ulp x := by
    rw [ulp, ← zpow_natCast, ← zpow_add₀ two_ne_zero]
    congr 1
    omega
  rw [next, nearest, abs_mul, abs_of_pos (f.ulp_pos x)]
  exact mul_le_mul_of_nonneg_right rounded (f.ulp_pos x).le

/-- Neither an underflow nor an overflow. -/
theorem inRange_nearest (low : 2 ^ f.minExponent ≤ |x|) (high : |x| < 2 ^ (f.maxExponent - 1)) :
    f.InRange (f.nearest x) := by
  have nonzero : 0 < |x| := (zpow_pos two_pos _).trans_le low
  have least : f.minExponent ≤ exponent x :=
    (Int.zpow_le_iff_le_log one_lt_two nonzero).mp (by simpa using low)
  have most : exponent x < f.maxExponent - 1 :=
    (Int.lt_zpow_iff_log_lt one_lt_two nonzero).mp (by simpa using high)
  refine .inr ⟨?_, ?_⟩
  · exact (zpow_le_zpow_right₀ one_le_two least).trans
      (f.two_zpow_exponent_le_nearest (abs_pos.mp nonzero))
  · exact (f.abs_nearest_le x).trans_lt (zpow_lt_zpow_right₀ one_lt_two (by omega))

end Format

/-- The numbers of a format. -/
structure Number (f : Format) where
  value : ℚ
  digits : f.Digits value
  inRange : f.InRange value

namespace Number

variable {f : Format} {x : ℚ}

@[ext] theorem ext {a b : Number f} (h : a.value = b.value) : a = b := by
  cases a
  cases b
  cases h
  rfl

/-- The number nearest to `x`, unless it is out of range. -/
def round (f : Format) (x : ℚ) : Option (Number f) :=
  if h : f.InRange (f.nearest x) then some ⟨f.nearest x, f.digits_nearest x, h⟩ else none

def add (a b : Number f) : Option (Number f) := round f (a.value + b.value)
def sub (a b : Number f) : Option (Number f) := round f (a.value - b.value)
def mul (a b : Number f) : Option (Number f) := round f (a.value * b.value)

/-- There are no infinities. -/
def div (a b : Number f) : Option (Number f) :=
  if b.value = 0 then none else round f (a.value / b.value)

@[simp] theorem round_value (a : Number f) : round f a.value = some a := by
  have same := f.nearest_of_digits a.digits
  rw [round, dif_pos (same.symm ▸ a.inRange)]
  exact congrArg some (ext same)

/-- Where it is in range, the rounded number has the relative error of the format. -/
theorem exists_round (nonneg : 0 ≤ x) (low : x = 0 ∨ 2 ^ f.minExponent ≤ x)
    (high : x < 2 ^ (f.maxExponent - 1)) :
    ∃ a : Number f, round f x = some a ∧ Near f.roundoff 1 x a.value := by
  have inRange : f.InRange (f.nearest x) := by
    rcases low with rfl | low
    · exact .inl f.nearest_zero
    · rw [← abs_of_nonneg nonneg] at low high
      exact f.inRange_nearest low high
  have error := f.abs_nearest_sub_le x
  rw [abs_of_nonneg nonneg] at error
  exact ⟨_, dif_pos inRange, .of_abs_sub_le nonneg error⟩

theorem round_natCast {i : Nat} (few : i < 2 ^ f.precision) (one : f.minExponent ≤ 0)
    (wide : f.precision ≤ f.maxExponent) : ∃ a : Number f, round f i = some a ∧ a.value = i := by
  have digits : f.Digits i := ⟨i, 0, by exact_mod_cast few, by simp⟩
  have inRange : f.InRange i := by
    rcases Nat.eq_zero_or_pos i with rfl | positive
    · exact .inl Nat.cast_zero
    have least : (1 : ℚ) ≤ i := by exact_mod_cast positive
    have bound : (i : ℚ) < 2 ^ f.precision := by exact_mod_cast few
    refine .inr ?_
    rw [abs_of_nonneg i.cast_nonneg]
    refine ⟨(zpow_le_one_of_nonpos₀ one_le_two one).trans least, ?_⟩
    calc (i : ℚ) < 2 ^ f.precision := bound
      _ = 2 ^ (f.precision : ℤ) := (zpow_natCast _ _).symm
      _ ≤ 2 ^ f.maxExponent := zpow_le_zpow_right₀ one_le_two wide
  exact ⟨⟨i, digits, inRange⟩, round_value ⟨i, digits, inRange⟩, rfl⟩

/-- Sums do not underflow. -/
theorem exists_add {a b : Number f} (ha : 0 ≤ a.value) (hb : 0 ≤ b.value)
    (high : a.value + b.value < 2 ^ (f.maxExponent - 1)) :
    ∃ c, a.add b = some c ∧ Near f.roundoff 1 (a.value + b.value) c.value := by
  refine exists_round (add_nonneg ha hb) ?_ high
  rcases a.inRange with zero | ⟨low, _⟩
  · rw [zero, zero_add]
    exact b.inRange.imp_right fun range => abs_of_nonneg hb ▸ range.1
  · rw [abs_of_nonneg ha] at low
    exact .inr (low.trans (le_add_of_nonneg_right hb))

end Number

end FloatingPoint
