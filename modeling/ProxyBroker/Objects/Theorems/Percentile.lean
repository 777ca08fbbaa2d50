import ProxyBroker.Numeric.Interpolation
import ProxyBroker.Objects.Percentile

namespace percentile

variable {n : Nat} {q q' : ℚ} {data : List ℚ} {v : ℚ}

section Rank

theorem rank_nonneg (h : 0 ≤ q) : 0 ≤ rank n q :=
  mul_nonneg h (Nat.cast_nonneg _)

theorem rank_mono (h : q ≤ q') : rank n q ≤ rank n q' :=
  mul_le_mul_of_nonneg_right h (Nat.cast_nonneg _)

@[simp]
theorem rank_zero : rank n 0 = 0 :=
  zero_mul _

@[simp]
theorem rank_one : rank n 1 = (n - 1 : Nat) :=
  one_mul _

theorem hi_le (h : q ≤ 1) : hi n q ≤ n - 1 :=
  Nat.ceil_le.mpr (rank_one ▸ rank_mono h)

theorem lo_le (h : q ≤ 1) : lo n q ≤ n - 1 :=
  (Nat.floor_le_ceil _).trans (hi_le h)

end Rank

-- The sorted data as a sequence whose last element repeats forever.
def ranked (data : List ℚ) (i : Nat) : ℚ :=
  (data.insertionSort (· ≤ ·)).getD (min i (data.length - 1)) 0

theorem getElem?_ranked (h : data ≠ []) {i : Nat} (hi : i ≤ data.length - 1) :
    (data.insertionSort (· ≤ ·))[i]? = some (ranked data i) := by
  have hl : i < (data.insertionSort (· ≤ ·)).length := by
    have := List.length_pos_iff.mpr h
    rw [List.length_insertionSort]
    omega
  rw [ranked, min_eq_left hi, List.getD_eq_getElem?_getD, List.getElem?_eq_getElem hl, Option.getD_some]

theorem ranked_mem (h : data ≠ []) (i : Nat) : ranked data i ∈ data := by
  have := getElem?_ranked h (min_le_right i (data.length - 1))
  rw [← List.mem_insertionSort (r := (· ≤ ·))]
  exact List.mem_of_getElem? (by simpa [ranked] using this)

theorem ranked_mono (h : data ≠ []) : Monotone (ranked data) := by
  intro i j hij
  obtain ⟨hi, hei⟩ := List.getElem?_eq_some_iff.mp (getElem?_ranked h (min_le_right i (data.length - 1)))
  obtain ⟨hj, hej⟩ := List.getElem?_eq_some_iff.mp (getElem?_ranked h (min_le_right j (data.length - 1)))
  have hs := @List.SortedLE.getElem_le_getElem_of_le _ _ _ List.sortedLE_insertionSort _ _ hi hj (min_le_min_right _ hij)
  rw [hei, hej] at hs
  simpa [ranked] using hs

theorem exists_ranked (h : v ∈ data) : ∃ i ≤ data.length - 1, ranked data i = v := by
  obtain ⟨i, hi, rfl⟩ := List.getElem_of_mem ((List.mem_insertionSort (r := (· ≤ ·))).mpr h)
  have hl : i ≤ data.length - 1 := by
    rw [List.length_insertionSort] at hi
    omega
  have := getElem?_ranked (List.ne_nil_of_mem h) hl
  rw [List.getElem?_eq_getElem hi] at this
  exact ⟨i, hl, (Option.some.inj this).symm⟩

theorem isLeast_ranked (h : data ≠ []) : IsLeast {x | x ∈ data} (ranked data 0) := by
  refine ⟨ranked_mem h 0, fun x hx => ?_⟩
  obtain ⟨i, _, rfl⟩ := exists_ranked hx
  exact ranked_mono h (Nat.zero_le i)

theorem isGreatest_ranked (h : data ≠ []) : IsGreatest {x | x ∈ data} (ranked data (data.length - 1)) := by
  refine ⟨ranked_mem h _, fun x hx => ?_⟩
  obtain ⟨i, hi, rfl⟩ := exists_ranked hx
  exact ranked_mono h hi

-- Both ranks are in range, so the result is an interpolation of the sorted data.
theorem unrounded_eq (h : data ≠ []) (h₁ : q ≤ 1) :
    unrounded q data = some (interpolate (ranked data) (rank data.length q)) := by
  rw [unrounded, if_neg h]
  simp only [List.length_insertionSort, getElem?_ranked h (lo_le h₁), getElem?_ranked h (hi_le h₁)]
  rfl

theorem unrounded_perm {data' : List ℚ} (h : data.Perm data') : unrounded q data = unrounded q data' := by
  have hs : data.insertionSort (· ≤ ·) = data'.insertionSort (· ≤ ·) :=
    ((data.perm_insertionSort _).trans (h.trans (data'.perm_insertionSort _).symm)).eq_of_sortedLE
      List.sortedLE_insertionSort List.sortedLE_insertionSort
  have hn : data = [] ↔ data' = [] := by
    rw [← List.length_eq_zero_iff, h.length_eq, List.length_eq_zero_iff]
  simp only [unrounded, hn, hs]

theorem unrounded_mono {v' : ℚ} (h : data ≠ []) (h₀ : 0 ≤ q) (hq : q ≤ q') (h₁ : q' ≤ 1)
    (hv : unrounded q data = some v) (hv' : unrounded q' data = some v') : v ≤ v' := by
  cases (unrounded_eq h (hq.trans h₁)).symm.trans hv
  cases (unrounded_eq h h₁).symm.trans hv'
  exact interpolate.mono (ranked_mono h) (rank_nonneg h₀) (rank_mono hq)

theorem unrounded_zero (h : data ≠ []) : unrounded 0 data = some (ranked data 0) := by
  rw [unrounded_eq h zero_le_one, rank_zero, ← Nat.cast_zero, interpolate.natCast]

theorem unrounded_one (h : data ≠ []) : unrounded 1 data = some (ranked data (data.length - 1)) := by
  rw [unrounded_eq h le_rfl, rank_one, interpolate.natCast]

theorem isLeast_unrounded (h : data ≠ []) (hv : unrounded 0 data = some v) : IsLeast {x | x ∈ data} v :=
  Option.some.inj ((unrounded_zero h).symm.trans hv) ▸ isLeast_ranked h

theorem isGreatest_unrounded (h : data ≠ []) (hv : unrounded 1 data = some v) : IsGreatest {x | x ∈ data} v :=
  Option.some.inj ((unrounded_one h).symm.trans hv) ▸ isGreatest_ranked h

-- No interpolation takes place at a rank that is an index.
theorem unrounded_rank (h : data ≠ []) (h₁ : q ≤ 1) {k : Nat} (hk : rank data.length q = k) :
    unrounded q data = (data.insertionSort (· ≤ ·))[k]? := by
  have hl : k ≤ data.length - 1 := by
    have := hi_le (n := data.length) h₁
    rwa [hi, hk, Nat.ceil_natCast] at this
  rw [unrounded_eq h h₁, hk, interpolate.natCast, getElem?_ranked h hl]

theorem percentile_sound (h : data ≠ []) (h₀ : 0 ≤ q) (h₁ : q ≤ 1) :
    lo data.length q < data.length ∧ hi data.length q < data.length ∧
    ∃ v, unrounded q data = some v ∧ percentile data q = some (round2 v) ∧
      (∀ data', data.Perm data' → unrounded q data' = some v) ∧
      (∀ m, IsLeast {x | x ∈ data} m → m ≤ v) ∧ (∀ m, IsGreatest {x | x ∈ data} m → v ≤ m) ∧
      (∀ q' v', q ≤ q' → q' ≤ 1 → unrounded q' data = some v' → v ≤ v') ∧
      (q = 0 → IsLeast {x | x ∈ data} v) ∧ (q = 1 → IsGreatest {x | x ∈ data} v) ∧
      ∀ k : Nat, q * (data.length - 1) = k → (data.insertionSort (· ≤ ·))[k]? = some v := by
  have hn := List.length_pos_iff.mpr h
  have hl := lo_le (n := data.length) h₁
  have hh := hi_le (n := data.length) h₁
  have hv := unrounded_eq h h₁
  refine ⟨by omega, by omega, _, hv, congrArg (Option.map round2) hv, fun data' hp => unrounded_perm hp ▸ hv,
    fun m hm => ?least, fun m hm => ?greatest, fun q' v' hq hq' => unrounded_mono h h₀ hq hq' hv,
    fun hq => isLeast_unrounded h (hq ▸ hv), fun hq => isGreatest_unrounded h (hq ▸ hv), fun k hk => ?rank⟩
  case least    => exact hm.unique (isLeast_ranked h) ▸ unrounded_mono h le_rfl h₀ h₁ (unrounded_zero h) hv
  case greatest => exact hm.unique (isGreatest_ranked h) ▸ unrounded_mono h h₀ h₁ le_rfl hv (unrounded_one h)
  case rank     =>
    have hr : rank data.length q = k := by rw [rank, Nat.cast_pred hn, hk]
    exact unrounded_rank h h₁ hr ▸ hv

theorem percentile_sound_median : unrounded (1 / 2) [3, 1, 2] = some 2 := by
  have hn : ([3, 1, 2] : List ℚ) ≠ [] := by decide
  obtain ⟨_, _, v, hv, _, _, _, _, _, _, _, hk⟩ := percentile_sound (q := 1 / 2) hn (by norm_num) (by norm_num)
  have hs : ([3, 1, 2] : List ℚ).insertionSort (· ≤ ·) = [1, 2, 3] := by decide
  have hm := hk 1 (by norm_num)
  rw [hs] at hm
  exact hv.trans hm.symm

end percentile
