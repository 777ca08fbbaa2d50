import Mathlib.Algebra.Order.Field.Power
import Mathlib.Algebra.Order.Field.Rat
import Mathlib.Data.Int.Log
import Mathlib.Data.Rat.Floor
import Mathlib.Tactic.Linarith
import Mathlib.Tactic.Ring

-- Rounding to the nearest integer, where ties go to the even one.
def roundHalfEven (x : ℚ) : ℤ :=
  let f := ⌊x⌋
  let r := x - f
  if r < 1 / 2 then f
  else if 1 / 2 < r then f + 1
  else if f % 2 = 0 then f else f + 1

section RoundHalfEven

variable {x : ℚ} {n : ℤ}

-- Rounding does not cross an integer.
theorem le_roundHalfEven (h : n ≤ x) : n ≤ roundHalfEven x := by
  have hf : n ≤ ⌊x⌋ := Int.le_floor.mpr h
  simp only [roundHalfEven]
  split_ifs <;> omega

theorem roundHalfEven_le (h : x ≤ n) : roundHalfEven x ≤ n := by
  rcases h.eq_or_lt with rfl | h
  · have hf : ⌊(n : ℚ)⌋ = n := Int.floor_intCast n
    simp [roundHalfEven, hf]
  · have hf : ⌊x⌋ < n := Int.floor_lt.mpr h
    simp only [roundHalfEven]
    split_ifs <;> omega

@[simp]
theorem roundHalfEven_intCast (n : ℤ) : roundHalfEven n = n :=
  le_antisymm (roundHalfEven_le le_rfl) (le_roundHalfEven le_rfl)

end RoundHalfEven

-- The arithmetic of the format `binary64`, by which each result is rounded to the nearest number of the format. Its
-- finite numbers are represented by their exact values. There are no infinities: exponents are only bounded from below.
namespace Binary64

-- The exponent of the distance between the numbers of the format at the magnitude of `x`.
def exponent (x : ℚ) : ℤ :=
  max (Int.log 2 |x| - 52) (-1074)

-- The nearest number of the format, where ties go to the one with the even significand.
def nearest (x : ℚ) : ℚ :=
  roundHalfEven (x / 2 ^ exponent x) * 2 ^ exponent x

def add (x y : ℚ) : ℚ :=
  nearest (x + y)

def sub (x y : ℚ) : ℚ :=
  nearest (x - y)

def div (x y : ℚ) : ℚ :=
  nearest (x / y)

def sum (xs : List ℚ) : ℚ :=
  xs.foldl add 0

variable {x y : ℚ} {n q r : ℤ} {xs : List ℚ}

theorem two_zpow_pos : (0 : ℚ) < 2 ^ q :=
  zpow_pos two_pos q

theorem le_exponent : -1074 ≤ exponent x :=
  le_max_right ..

@[simp]
theorem nearest_zero : nearest 0 = 0 := by
  rw [nearest, zero_div, show roundHalfEven 0 = 0 from roundHalfEven_intCast 0, Int.cast_zero, zero_mul]

-- A multiple of a power of two is one of any smaller power.
theorem exists_zpow_mul (h : r ≤ q) (n : ℤ) : ∃ m : ℤ, n * (2 : ℚ) ^ q / 2 ^ r = m := by
  obtain ⟨k, rfl⟩ := Int.exists_add_of_le h
  refine ⟨n * 2 ^ k, ?_⟩
  rw [zpow_add₀ two_ne_zero, mul_div_assoc, mul_div_cancel_left₀ _ two_zpow_pos.ne', zpow_natCast]
  push_cast
  rfl

theorem nearest_of_int (h : x / 2 ^ exponent x = n) : nearest x = x := by
  rw [nearest, h, roundHalfEven_intCast, ← h]
  exact div_mul_cancel₀ _ two_zpow_pos.ne'

-- A significand has 53 bits, and rounding can only carry into the next one.
theorem abs_significand_le : |roundHalfEven (x / 2 ^ exponent x)| ≤ 2 ^ 53 := by
  have hx : |x| < 2 ^ (53 : ℤ) * 2 ^ exponent x := by
    calc |x| < 2 ^ (Int.log 2 |x| + 1)       := Int.lt_zpow_succ_log_self one_lt_two _
      _      ≤ 2 ^ (53 + exponent x)         := zpow_le_zpow_right₀ one_le_two (by unfold exponent; omega)
      _      = 2 ^ (53 : ℤ) * 2 ^ exponent x := zpow_add₀ two_ne_zero ..
  have hx : |x / 2 ^ exponent x| < 2 ^ (53 : ℤ) := by
    rwa [abs_div, abs_of_pos (two_zpow_pos (q := exponent x)), div_lt_iff₀ two_zpow_pos]
  obtain ⟨hl, hu⟩ := abs_lt.mp hx
  refine abs_le.mpr ⟨le_roundHalfEven ?_, roundHalfEven_le ?_⟩
  · exact_mod_cast hl.le
  · exact_mod_cast hu.le

-- What has a significand of 53 bits and an exponent in range is a number of the format.
theorem nearest_of_lt (hn : |n| < 2 ^ 53) (hq : -1074 ≤ q) : nearest (n * 2 ^ q) = n * 2 ^ q := by
  rcases eq_or_ne n 0 with rfl | h₀
  · simp
  · have h₀ : (n : ℚ) ≠ 0 := Int.cast_ne_zero.mpr h₀
    have hl : Int.log 2 |(n : ℚ) * 2 ^ q| < 53 + q := by
      rw [← Int.lt_zpow_iff_log_lt one_lt_two (abs_pos.mpr (mul_ne_zero h₀ two_zpow_pos.ne')), abs_mul,
        abs_of_pos (two_zpow_pos (q := q)), Nat.cast_ofNat, zpow_add₀ two_ne_zero]
      exact mul_lt_mul_of_pos_right (by exact_mod_cast hn) two_zpow_pos
    obtain ⟨m, hm⟩ := exists_zpow_mul (show exponent ((n : ℚ) * 2 ^ q) ≤ q by unfold exponent; omega) n
    exact nearest_of_int hm

theorem nearest_of_le (hn : |n| ≤ 2 ^ 53) (hq : -1074 ≤ q) : nearest (n * 2 ^ q) = n * 2 ^ q := by
  rcases hn.lt_or_eq with hn | hn
  · exact nearest_of_lt hn hq
  · obtain ⟨m, rfl, hm⟩ : ∃ m : ℤ, n = m * 2 ∧ |m| < 2 ^ 53 := by
      rcases abs_eq (by decide : (0 : ℤ) ≤ 2 ^ 53) |>.mp hn with rfl | rfl
      · exact ⟨2 ^ 52, by decide, by decide⟩
      · exact ⟨-2 ^ 52, by decide, by decide⟩
    have he : ((m * 2 : ℤ) : ℚ) * 2 ^ q = m * 2 ^ (q + 1) := by
      rw [zpow_add_one₀ two_ne_zero]
      push_cast
      ring
    rw [he, nearest_of_lt hm (by omega)]

theorem nearest_nearest : nearest (nearest x) = nearest x :=
  nearest_of_le abs_significand_le le_exponent

-- Rounding does not cross a number of the format.
theorem nearest_le (h₀ : 0 ≤ x) (h : x ≤ y) (hy : nearest y = y) : nearest x ≤ y := by
  rcases h₀.eq_or_lt with rfl | h₀
  · simpa using h
  · have he : exponent x ≤ exponent y := by
      have := Int.log_mono_right (b := 2) (abs_pos.mpr h₀.ne') (abs_le_abs_of_nonneg h₀.le h)
      unfold exponent
      omega
    obtain ⟨m, hm⟩ := exists_zpow_mul he (roundHalfEven (y / 2 ^ exponent y))
    rw [← nearest, hy, div_eq_iff two_zpow_pos.ne'] at hm
    rw [hm, nearest]
    refine mul_le_mul_of_nonneg_right (Int.cast_le.mpr (roundHalfEven_le ?_)) two_zpow_pos.le
    rwa [div_le_iff₀ two_zpow_pos, ← hm]

theorem nearest_nonneg (h : 0 ≤ x) : 0 ≤ nearest x :=
  mul_nonneg (Int.cast_nonneg (le_roundHalfEven (by simpa using div_nonneg h two_zpow_pos.le))) two_zpow_pos.le

@[simp]
theorem nearest_one : nearest 1 = 1 := by
  simpa using nearest_of_le (n := 1) (q := 0) (by decide) (by decide)

theorem nearest_sum : nearest (sum xs) = sum xs := by
  rcases xs.eq_nil_or_concat with rfl | ⟨xs, x, rfl⟩
  · exact nearest_zero
  · rw [sum, List.concat_eq_append, List.foldl_append]
    exact nearest_nearest

theorem sum_append_zeros (n : Nat) : sum (xs ++ .replicate n 0) = sum xs := by
  rw [sum, List.foldl_append, ← sum]
  induction n
  case zero      => rfl
  case succ n hi => rw [List.replicate_succ, List.foldl_cons, add, add_zero, nearest_sum, hi]

end Binary64
