import Mathlib.Data.List.Basic

namespace List

variable {α κ : Type} [DecidableEq κ] (key : α → κ)

-- The first of the elements with each key, other than the keys that are known already.
def firsts (known : List κ) : List α → List α
  | []      => []
  | a :: as => if key a ∈ known then firsts known as else a :: firsts (key a :: known) as

variable {key} {known : List κ} {as : List α} {a : α} {k : κ}

theorem not_mem_known_of_mem_firsts (h : a ∈ firsts key known as) : key a ∉ known := by
  induction as generalizing known
  case nil => cases h
  case cons b as hi =>
    rw [firsts] at h
    split_ifs at h with hb
    · exact hi h
    · rcases mem_cons.mp h with rfl | h
      · exact hb
      · exact fun hk => hi h (mem_cons_of_mem _ hk)

-- All of the other keys are represented, each by the first element that has it.
theorem filter_firsts (hk : k ∉ known) : (firsts key known as).filter (key · = k) = (as.find? (key · = k)).toList := by
  induction as generalizing known
  case nil => rfl
  case cons b as hi =>
    rw [firsts]
    by_cases hb : key b = k
    case pos =>
      have hn : (firsts key (key b :: known) as).filter (key · = k) = [] := by
        refine filter_eq_nil_iff.mpr fun a ha h => ?_
        have ha := not_mem_known_of_mem_firsts ha
        rw [of_decide_eq_true h, hb] at ha
        exact ha mem_cons_self
      rw [if_neg (hb ▸ hk), filter_cons_of_pos (by simpa using hb), find?_cons_of_pos (by simpa using hb), hn]
      rfl
    case neg =>
      rw [find?_cons_of_neg (by simpa using hb)]
      split_ifs with hm
      · exact hi hk
      · rw [filter_cons_of_neg (by simpa using hb)]
        exact hi (by simp [hk, Ne.symm hb])

theorem mem_map_firsts : k ∈ (firsts key known as).map key ↔ k ∈ as.map key ∧ k ∉ known := by
  by_cases hk : k ∈ known
  · simp only [hk, not_true, and_false, iff_false, mem_map, not_exists, not_and]
    rintro a ha rfl
    exact not_mem_known_of_mem_firsts ha hk
  · have h (l : List α) : k ∈ l.map key ↔ l.filter (key · = k) ≠ [] := by simp [filter_eq_nil_iff]
    have hf : (as.find? (key · = k)).toList ≠ [] ↔ k ∈ as.map key := by
      simp
    rw [h, filter_firsts hk, hf]
    simp [hk]

theorem firsts_eq_nil_iff : firsts key known as = [] ↔ ∀ a ∈ as, key a ∈ known := by
  rw [← map_eq_nil_iff (f := key), eq_nil_iff_forall_not_mem]
  simp only [mem_map_firsts, not_and, not_not, forall_mem_map]

section Reconcile

variable {ε : Type} (entryKey : ε → κ) (key) (make : α → ε) (es : List ε) (as : List α)

-- The entries that are desired, and a new entry for whatever else is desired.
def reconcile : List ε :=
  es.filter (entryKey · ∈ as.map key) ++ (firsts key (es.map entryKey) as).map make

variable {entryKey key make es as} (h : ∀ a, entryKey (make a) = key a)
include h

theorem mem_map_reconcile : k ∈ (reconcile key entryKey make es as).map entryKey ↔ k ∈ as.map key := by
  have hf : k ∈ (firsts key (es.map entryKey) as).map key ↔ _ := mem_map_firsts
  have hm : (entryKey ∘ make) = key := funext h
  rw [reconcile, map_append, mem_append, map_map, hm, hf]
  constructor
  · rintro (hk | hk)
    · obtain ⟨e, he, rfl⟩ := mem_map.mp hk
      simpa using (mem_filter.mp he).right
    · exact hk.left
  · intro hk
    by_cases he : k ∈ es.map entryKey
    · obtain ⟨e, hm, rfl⟩ := mem_map.mp he
      exact .inl <| mem_map_of_mem <| mem_filter.mpr ⟨hm, by simpa using hk⟩
    · exact .inr ⟨hk, he⟩

-- The entries that there have been before are kept as they are and where they are.
theorem filter_reconcile_old : (reconcile key entryKey make es as).filter (entryKey · ∈ es.map entryKey) =
    es.filter (entryKey · ∈ as.map key) := by
  have hn : ((firsts key (es.map entryKey) as).map make).filter (entryKey · ∈ es.map entryKey) = [] := by
    refine filter_eq_nil_iff.mpr fun e he hk => ?_
    obtain ⟨a, ha, rfl⟩ := mem_map.mp he
    rw [h] at hk
    exact not_mem_known_of_mem_firsts ha (of_decide_eq_true hk)
  rw [reconcile, filter_append, hn, append_nil, filter_eq_self]
  exact fun e he => decide_eq_true (mem_map_of_mem (mem_filter.mp he).left)

theorem filter_reconcile_new (hk : k ∉ es.map entryKey) :
    (reconcile key entryKey make es as).filter (entryKey · = k) = (as.find? (key · = k)).toList.map make := by
  have hn : (es.filter (entryKey · ∈ as.map key)).filter (entryKey · = k) = [] := by
    refine filter_eq_nil_iff.mpr fun e he hk' => hk ?_
    exact of_decide_eq_true hk' ▸ mem_map_of_mem (mem_filter.mp he).left
  rw [reconcile, filter_append, hn, nil_append, filter_map, ← filter_firsts hk]
  simp only [Function.comp_def, h]

-- There is nothing to reconcile any more.
theorem reconcile_reconcile : reconcile key entryKey make (reconcile key entryKey make es as) as =
    reconcile key entryKey make es as := by
  have hf : firsts key ((reconcile key entryKey make es as).map entryKey) as = [] :=
    firsts_eq_nil_iff.mpr fun a ha => (mem_map_reconcile h).mpr (mem_map_of_mem ha)
  rw [reconcile, hf, map_nil, append_nil, filter_eq_self]
  exact fun e he => decide_eq_true ((mem_map_reconcile h).mp (mem_map_of_mem he))

end Reconcile

end List
