import ProxyBroker.Text.Str
import Mathlib.Tactic.IntervalCases

-- The digits of a number, as they are printed and as they are read again.
namespace Nat

variable {b n : Nat}

-- Numbers are built up from their digits.
theorem toDigits_rec {P : Nat → List Char → Prop} (hb : 1 < b) (hd : ∀ n < b, P n [n.digitChar])
    (hs : ∀ n ds, 0 < n → ds ≠ [] → P n ds → ∀ d < b, P (b * n + d) (ds ++ [d.digitChar])) :
    P n (toDigits b n) := by
  induction n using Nat.strong_induction_on
  case _ n hi =>
    by_cases hn : n < b
    case pos => exact toDigits_of_lt_base hn ▸ hd n hn
    case neg =>
      have hn := Nat.le_of_not_lt hn
      have hp : 0 < n / b := Nat.div_pos hn (by omega)
      have hl : n / b < n := Nat.div_lt_self (by omega) hb
      have := hs (n / b) _ hp toDigits_ne_nil (hi (n / b) hl) (n % b) (Nat.mod_lt n (by omega))
      rwa [Nat.div_add_mod, ← toDigits_of_base_le hb hn] at this

theorem digitChar_mem_toDigits (hb : 1 < b) {c : Char} (h : c ∈ toDigits b n) : ∃ d < b, c = d.digitChar := by
  revert h
  refine toDigits_rec (P := fun _ ds => c ∈ ds → ∃ d < b, c = d.digitChar) hb ?_ ?_
  · intro n hn h
    exact ⟨n, hn, List.mem_singleton.mp h⟩
  · intro n ds _ _ hi d hd h
    rcases List.mem_append.mp h with h | h
    · exact hi h
    · exact ⟨d, hd, List.mem_singleton.mp h⟩

-- Reading digits from left to right.
def ofDigitsWith (b : Nat) (value : Char → Nat) (ds : List Char) : Nat :=
  ds.foldl (fun n c => b * n + value c) 0

theorem ofDigitsWith_toDigits (hb : 1 < b) (value : Char → Nat) (hv : ∀ d < b, value d.digitChar = d) :
    ofDigitsWith b value (toDigits b n) = n := by
  refine toDigits_rec (P := fun n ds => ofDigitsWith b value ds = n) hb ?_ ?_
  · intro n hn
    simp [ofDigitsWith, hv n hn]
  · intro n ds _ _ hi d hd
    rw [ofDigitsWith, List.foldl_append, ← ofDigitsWith, hi]
    simp [hv d hd]

theorem digitChar_ne_zero {d : Nat} (hd : d < 16) (hp : 0 < d) : d.digitChar ≠ '0' := by
  interval_cases d <;> decide

-- There are no leading zeroes.
theorem head?_toDigits (hb : 1 < b) (h16 : b ≤ 16) (h : (toDigits b n).head? = some '0') :
    (toDigits b n).length ≤ 1 := by
  have key := toDigits_rec (b := b) (n := n) (P := fun n ds => ds ≠ [] ∧ (0 < n → ds.head? ≠ some '0')) hb ?_ ?_
  · rcases Nat.eq_zero_or_pos n with rfl | hn
    · simp
    · exact absurd h (key.right hn)
  · intro n hn
    exact ⟨by simp, fun hp => by simpa using digitChar_ne_zero (by omega) hp⟩
  · rintro n ds hn hds ⟨_, hi⟩ d _
    refine ⟨by simp, fun _ => ?_⟩
    rw [List.head?_append_of_ne_nil _ hds]
    exact hi hn

end Nat

namespace Str

theorem digit?_digitChar {d : Nat} (h : d < 10) : digit? d.digitChar = some d := by
  interval_cases d <;> decide

theorem mem_ofNat {n : Nat} {c : Char} (h : c ∈ ofNat n) : ∃ d < 10, c = d.digitChar :=
  Nat.digitChar_mem_toDigits (by decide) h

theorem isDigit_of_mem_ofNat {n : Nat} {c : Char} (h : c ∈ ofNat n) : c.isDigit :=
  Nat.isDigit_of_mem_toDigits (by decide) (by decide) h

theorem not_mem_ofNat {n : Nat} {c : Char} (h : c.isDigit = false) : c ∉ ofNat n :=
  fun hm => by simp [isDigit_of_mem_ofNat hm] at h

theorem ofNat_ne_nil (n : Nat) : ofNat n ≠ [] :=
  Nat.toDigits_ne_nil

-- The number that a text of digits stands for.
def valueOf (ds : Str) : Nat :=
  Nat.ofDigitsWith 10 (fun c => (digit? c).getD 0) ds

theorem valueOf_ofNat (n : Nat) : valueOf (ofNat n) = n :=
  Nat.ofDigitsWith_toDigits (by decide) (fun c => (digit? c).getD 0) fun d hd => by simp [digit?_digitChar hd]

theorem mapM_digit? {ds : Str} (h : ∀ c ∈ ds, c.isDigit) :
    ds.mapM digit? = some (ds.map fun c => (digit? c).getD 0) := by
  induction ds
  case nil => rfl
  case cons c ds hi =>
    obtain ⟨hc, hs⟩ := List.forall_mem_cons.mp h
    have hd : digit? c = some (c.toNat - '0'.toNat) := if_pos hc
    rw [List.mapM_cons, hi hs, hd]
    simp [hd]

theorem mapM_digit?_eq_none {s : Str} {c : Char} (hc : c ∈ s) (h : c.isDigit = false) : s.mapM digit? = none := by
  induction s
  case nil => cases hc
  case cons d s hi =>
    rw [List.mapM_cons]
    rcases List.mem_cons.mp hc with rfl | hc
    · have hd : digit? c = none := if_neg (by simp [h])
      rw [hd]
      rfl
    · rw [hi hc]
      cases digit? d <;> rfl

-- A text of digits can be read unless it stands for too large a number.
theorem parseUnsigned_digits {max : Nat} {ds : Str} (h : ∀ c ∈ ds, c.isDigit) (hn : ds ≠ []) :
    parseUnsigned max ds = if valueOf ds ≤ max then some (valueOf ds) else none := by
  have hp : stripPrefix ['+'] ds = none := by
    unfold stripPrefix
    rw [if_neg]
    intro hp
    obtain ⟨t, rfl⟩ := List.isPrefixOf_iff_prefix.mp hp
    exact absurd (h '+' (by simp)) (by decide)
  have hv : (ds.map fun c => (digit? c).getD 0).foldl (10 * · + ·) 0 = valueOf ds := List.foldl_map
  unfold parseUnsigned
  rw [hp, Option.getD_none]
  split
  case h_1 => exact absurd rfl hn
  case h_2 =>
    rw [mapM_digit? h]
    simp only [Option.bind_eq_bind, Option.bind_some, hv]

theorem parseUnsigned_eq_none {max : Nat} {s : Str} {c : Char} (hc : c ∈ s) (h : c.isDigit = false) (hp : c ≠ '+') :
    parseUnsigned max s = none := by
  have hm : c ∈ (stripPrefix ['+'] s).getD s := by
    unfold stripPrefix
    split_ifs with hs
    · obtain ⟨t, rfl⟩ := List.isPrefixOf_iff_prefix.mp hs
      simpa [hp] using hc
    · exact hc
  unfold parseUnsigned
  split
  case h_1 => rfl
  case h_2 =>
    rw [mapM_digit?_eq_none hm h]
    rfl

-- What is printed can be read again.
theorem parseUnsigned_ofNat {max n : Nat} (h : n ≤ max) : parseUnsigned max (ofNat n) = some n := by
  rw [parseUnsigned_digits (fun _ => isDigit_of_mem_ofNat) (ofNat_ne_nil n), valueOf_ofNat, if_pos h]

theorem parseU16_ofNat (n : UInt16) : parseU16 (ofNat n.toNat) = some n := by
  unfold parseU16
  rw [parseUnsigned_ofNat (Nat.le_of_lt_succ n.toNat_lt)]
  simp

theorem rsplitOnce_eq_none {c : Char} {s : Str} (h : c ∉ s) : rsplitOnce c s = none := by
  induction s
  case nil => rfl
  case cons d s hi =>
    obtain ⟨hd, hs⟩ := List.ne_and_not_mem_of_not_mem_cons h
    simp [rsplitOnce, hi hs, Ne.symm hd]

theorem rsplitOnce_append {c : Char} {s t : Str} (h : c ∉ t) : rsplitOnce c (s ++ c :: t) = some (s, t) := by
  induction s
  case nil         => simp [rsplitOnce, rsplitOnce_eq_none h]
  case cons d s hi => simp [rsplitOnce, hi]

-- The last occurrence of a character.
theorem exists_append_cons_of_mem {c : Char} {s : Str} (h : c ∈ s) : ∃ l r, s = l ++ c :: r ∧ c ∉ r := by
  obtain ⟨r, l, hs, hr⟩ := List.eq_append_cons_of_mem (List.mem_reverse.mpr h)
  exact ⟨l.reverse, r.reverse, by simpa using congrArg List.reverse hs, by simpa using hr⟩

end Str
