import Mathlib.Algebra.Order.Floor.Semifield
import Mathlib.Tactic.Linarith
import Mathlib.Tactic.Ring

-- The values of a sequence at its indices, and in between of them what lies on the line from one to
-- the next.

variable {K : Type} [Field K] [LinearOrder K] [FloorSemiring K]

def interpolate (f : Nat → K) (x : K) : K :=
  f ⌊x⌋₊ + (x - ⌊x⌋₊) * (f ⌈x⌉₊ - f ⌊x⌋₊)

namespace interpolate

variable {f : Nat → K} {x y : K}

-- The upper neighbour only matters if `x` is not an index.
theorem eq_add (f : Nat → K) (h : 0 ≤ x) :
    interpolate f x = f ⌊x⌋₊ + (x - ⌊x⌋₊) * (f (⌊x⌋₊ + 1) - f ⌊x⌋₊) := by
  rcases (Nat.floor_le h).eq_or_lt with hx | hx
  · simp [interpolate, hx]
  · have hc : ⌈x⌉₊ = ⌊x⌋₊ + 1 :=
      le_antisymm (Nat.ceil_le_floor_add_one x) (Nat.lt_ceil.mpr hx)
    rw [interpolate, hc]

theorem congr {g : Nat → K} (hl : f ⌊x⌋₊ = g ⌊x⌋₊) (hu : f ⌈x⌉₊ = g ⌈x⌉₊) :
    interpolate f x = interpolate g x := by
  rw [interpolate, interpolate, hl, hu]

variable [IsStrictOrderedRing K]

@[simp]
theorem natCast (f : Nat → K) (n : Nat) : interpolate f (n : K) = f n := by
  simp [interpolate]

section Monotone

variable (hf : Monotone f)
include hf

theorem le_of_monotone (h : 0 ≤ x) : f ⌊x⌋₊ ≤ interpolate f x := by
  rw [eq_add f h]
  have hd : 0 ≤ f (⌊x⌋₊ + 1) - f ⌊x⌋₊ := sub_nonneg.mpr (hf (Nat.le_succ _))
  have hx : 0 ≤ x - ⌊x⌋₊ := sub_nonneg.mpr (Nat.floor_le h)
  exact le_add_of_nonneg_right (mul_nonneg hx hd)

theorem le_succ_of_monotone (h : 0 ≤ x) : interpolate f x ≤ f (⌊x⌋₊ + 1) := by
  rw [eq_add f h]
  have hd : 0 ≤ f (⌊x⌋₊ + 1) - f ⌊x⌋₊ := sub_nonneg.mpr (hf (Nat.le_succ _))
  have hx : x - ⌊x⌋₊ ≤ 1 := by linarith [Nat.lt_floor_add_one x]
  linarith [mul_le_of_le_one_left hd hx]

-- Two points lie on the same piece, or there is an index between them.
theorem mono (h : 0 ≤ x) (hxy : x ≤ y) : interpolate f x ≤ interpolate f y := by
  have hy := h.trans hxy
  rcases (Nat.floor_mono hxy).eq_or_lt with he | hl
  · rw [eq_add f h, eq_add f hy, ← he]
    have hd : 0 ≤ f (⌊x⌋₊ + 1) - f ⌊x⌋₊ := sub_nonneg.mpr (hf (Nat.le_succ _))
    have := mul_le_mul_of_nonneg_right (sub_le_sub_right hxy (⌊x⌋₊ : K)) hd
    linarith
  · calc
      interpolate f x ≤ f (⌊x⌋₊ + 1)  := le_succ_of_monotone hf h
      _               ≤ f ⌊y⌋₊        := hf hl
      _               ≤ interpolate f y := le_of_monotone hf hy

end Monotone
end interpolate
