import Mathlib.Data.Fintype.EquivFin

-- The map that combines a word with a shifted copy of itself is linear over the bits, and what it
-- maps to zero equals its own shift.

namespace Xorshift

variable {w k : Nat} {x : BitVec w}

-- Every bit is that of a lower position, and below the shift there is none.
theorem eq_zero_of_shiftLeft_eq (hk : 0 < k) (h : x <<< k = x) : x = 0 := by
  have hb (i : Nat) : x.getLsbD i = false := by
    induction i using Nat.strong_induction_on
    case h i hi =>
      rw [← h, BitVec.getLsbD_shiftLeft]
      by_cases hki : i < k
      · simp [hki]
      · simp [hi (i - k) (by omega)]
  exact BitVec.eq_of_getLsbD_eq fun i _ => by simp [hb]

-- Every bit is that of a higher position, and above the word there is none.
theorem eq_zero_of_ushiftRight_eq (hk : 0 < k) (h : x >>> k = x) : x = 0 := by
  have hb (n i : Nat) (hn : w ≤ i + n) : x.getLsbD i = false := by
    induction n using Nat.strong_induction_on generalizing i
    case h n hi =>
      by_cases hw : w ≤ i
      · exact BitVec.getLsbD_of_ge x i hw
      · rw [← h, BitVec.getLsbD_ushiftRight]
        exact hi (n - k) (by omega) (k + i) (by omega)
  exact BitVec.eq_of_getLsbD_eq fun i _ => by simp [hb w i (by omega)]

theorem injective_of_linear {f : BitVec w → BitVec w} (hf : ∀ x y, f (x ^^^ y) = f x ^^^ f y)
    (h₀ : ∀ x, f x = x → x = 0) : Function.Injective fun x => x ^^^ f x := by
  intro x y h
  have hk : (x ^^^ y) ^^^ f (x ^^^ y) = 0 := by
    rw [hf, BitVec.xor_assoc, ← BitVec.xor_assoc y, BitVec.xor_comm y, BitVec.xor_assoc, ← BitVec.xor_assoc]
    exact BitVec.xor_eq_zero_iff.mpr h
  exact BitVec.xor_eq_zero_iff.mp (h₀ _ (BitVec.xor_eq_zero_iff.mp hk).symm)

theorem injective_shiftLeft (hk : 0 < k) : Function.Injective fun x : BitVec w => x ^^^ (x <<< k) :=
  injective_of_linear (fun _ _ => BitVec.shiftLeft_xor_distrib ..) fun _ => eq_zero_of_shiftLeft_eq hk

theorem injective_ushiftRight (hk : 0 < k) : Function.Injective fun x : BitVec w => x ^^^ (x >>> k) :=
  injective_of_linear (fun _ _ => BitVec.ushiftRight_xor_distrib ..) fun _ => eq_zero_of_ushiftRight_eq hk

end Xorshift
