import Mathlib.Data.List.MinMax
import Mathlib.Data.List.Sort
import Mathlib.Order.Bounds.Basic

variable {ι κ : Type} [LinearOrder ι] [LinearOrder κ] {key : ι → κ} {s t : Set ι} {i j : ι}

-- The elements of a set with the least key.
def minimisers (key : ι → κ) (s : Set ι) : Set ι :=
  {i | i ∈ s ∧ ∀ j ∈ s, key i ≤ key j}

-- The least one of them.
def IsFirst (key : ι → κ) (s : Set ι) (i : ι) : Prop :=
  IsLeast (minimisers key s) i

namespace IsFirst

theorem mem (h : IsFirst key s i) : i ∈ s :=
  h.left.left

theorem le (h : IsFirst key s i) (hj : j ∈ s) : key i ≤ key j :=
  h.left.right j hj

theorem unique (hi : IsFirst key s i) (hj : IsFirst key s j) : i = j :=
  IsLeast.unique hi hj

-- An element that comes first in a set also does so among a part of it.
theorem of_subset (h : IsFirst key t i) (hs : s ⊆ t) (hi : i ∈ s) : IsFirst key s i := by
  refine ⟨⟨hi, fun j hj => h.le (hs hj)⟩, fun j hj => h.right ⟨hs hj.left, fun k hk => ?_⟩⟩
  exact (hj.right i hi).trans (h.le hk)

end IsFirst

theorem isFirst_iff : IsFirst key s i ↔ i ∈ s ∧ ∀ j ∈ s, key i ≤ key j ∧ (key j ≤ key i → i ≤ j) := by
  constructor
  · intro h
    refine ⟨h.mem, fun j hj => ⟨h.le hj, fun hk => h.right ⟨hj, fun k hk' => hk.trans (h.le hk')⟩⟩⟩
  · rintro ⟨hi, h⟩
    refine ⟨⟨hi, fun j hj => (h j hj).left⟩, fun j hj => (h j hj.left).right (hj.right i hi)⟩

namespace List

-- The positions of some of the elements of a list are ascending.
theorem sortedLT_map_snd {α : Type} {as : List α} {is : List (α × Nat)} (h : is.Sublist as.zipIdx) :
    (is.map Prod.snd).SortedLT := by
  have hs := h.map Prod.snd
  rw [zipIdx_map_snd] at hs
  exact ((sortedLT_range' 0 as.length Nat.one_ne_zero).pairwise.sublist hs).sortedLT

variable {l : List ι}

theorem SortedLT.idxOf_le_idxOf_iff (h : l.SortedLT) (hi : i ∈ l) (hj : j ∈ l) : l.idxOf i ≤ l.idxOf j ↔ i ≤ j := by
  have hl (k : ι) (hk : k ∈ l) : l.idxOf k < l.length := idxOf_lt_length_of_mem hk
  have := @StrictMono.le_iff_le _ _ _ _ _ h.strictMono_get ⟨_, hl i hi⟩ ⟨_, hl j hj⟩
  simpa using this.symm

-- The first minimal element of an ascending list is the lowest one.
theorem argmin_eq_some_iff_isFirst (h : l.SortedLT) :
    l.argmin key = some i ↔ IsFirst key {j | j ∈ l} i := by
  rw [argmin_eq_some_iff, isFirst_iff]
  constructor
  · rintro ⟨hi, hk, hf⟩
    exact ⟨hi, fun j hj => ⟨hk j hj, fun hl => (h.idxOf_le_idxOf_iff hi hj).mp (hf j hj hl)⟩⟩
  · rintro ⟨hi, hj⟩
    exact ⟨hi, fun j hm => (hj j hm).left, fun j hm hl => (h.idxOf_le_idxOf_iff hi hm).mpr ((hj j hm).right hl)⟩

-- The first element with a property is the lowest one.
theorem SortedLT.isLeast_of_find?_eq_some {p : ι → Bool} (h : l.SortedLT) (hf : l.find? p = some i) :
    IsLeast {j | j ∈ l ∧ p j = true} i := by
  obtain ⟨hp, as, bs, rfl, hn⟩ := find?_eq_some_iff_append.mp hf
  refine ⟨⟨by simp, hp⟩, ?_⟩
  rintro j ⟨hj, hpj⟩
  rcases mem_append.mp hj with hj | hj
  · exact absurd hpj (by simpa using hn j hj)
  · rcases mem_cons.mp hj with rfl | hj
    · exact le_rfl
    · exact ((pairwise_cons.mp (pairwise_append.mp h.pairwise).right.left).left j hj).le

end List
