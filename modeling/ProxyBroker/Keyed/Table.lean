import Mathlib.Algebra.GroupWithZero.Nat
import Mathlib.Data.List.AList

-- A table holds at most one row for each key.
abbrev Table (κ ρ : Type) :=
  AList fun _ : κ => ρ

namespace Table

variable {κ ρ ρ' σ : Type} [DecidableEq κ]

-- A row replaces the one with the same key, if there is one.
theorem length_insert (t : Table κ ρ) (k : κ) (r : ρ) :
    (AList.insert k r t).keys.length = if k ∈ t then t.keys.length else t.keys.length + 1 := by
  rw [AList.keys_insert, List.length_cons]
  split_ifs with h
  · have hk := AList.mem_keys.mp h
    rw [List.length_erase_of_mem hk]
    exact Nat.sub_add_cancel (List.length_pos_of_mem hk)
  · rw [List.erase_of_not_mem (mt AList.mem_keys.mpr h)]

-- A sample is folded into the row with its key.
def absorb (key : σ → κ) (step : Option ρ → σ → ρ) (t : Table κ ρ) (x : σ) : Table κ ρ :=
  t.insert (key x) (step (t.lookup (key x)) x)

-- The row that several samples with the same key are folded into.
def rowOf (step : Option ρ → σ → ρ) (r : Option ρ) (xs : List σ) : Option ρ :=
  xs.foldl (fun r x => some (step r x)) r

section Rows

variable {key : σ → κ} {step : Option ρ → σ → ρ} {t : Table κ ρ} {k : κ} {x : σ} {xs : List σ} {r : Option ρ}

@[simp]
theorem rowOf_nil : rowOf step r [] = r :=
  rfl

@[simp]
theorem rowOf_cons : rowOf step r (x :: xs) = rowOf step (some (step r x)) xs :=
  rfl

@[simp]
theorem rowOf_snoc : rowOf step r (xs ++ [x]) = some (step (rowOf step r xs) x) := by
  simp [rowOf]

theorem rowOf_isSome : (rowOf step none xs).isSome ↔ xs ≠ [] := by
  rcases xs.eq_nil_or_concat with rfl | ⟨xs, x, rfl⟩ <;> simp

theorem exists_rowOf_some (step : Option ρ → σ → ρ) (xs : List σ) (r : ρ) : ∃ r', rowOf step (some r) xs = some r' := by
  induction xs generalizing r
  case nil          => exact ⟨r, rfl⟩
  case cons x xs hi => exact hi (step (some r) x)

-- Two ways of folding samples that look the same after each sample look the same after all of them.
theorem rowOf_map {γ : Type} {step' : Option ρ' → σ → ρ'} {f : ρ → γ} {g : ρ' → γ}
    (h : ∀ r r' x, r.map f = r'.map g → f (step r x) = g (step' r' x)) {r' : Option ρ'} (hr : r.map f = r'.map g) :
    (rowOf step r xs).map f = (rowOf step' r' xs).map g := by
  induction xs generalizing r r'
  case nil          => exact hr
  case cons x xs hi => exact hi (congrArg some (h r r' x hr))

-- A counter in the rows adds up what the samples contribute to it.
theorem rowOf_sum (r : Option ρ) (xs : List σ) (f : ρ → Nat) (g : σ → Nat) (h : ∀ r x, f (step r x) = (r.map f).getD 0 + g x) :
    ((rowOf step r xs).map f).getD 0 = (r.map f).getD 0 + (xs.map g).sum := by
  induction xs generalizing r
  case nil          => simp
  case cons x xs hi => simp [hi, h, Nat.add_assoc]

theorem lookup_absorb : (t.absorb key step x).lookup k =
    if key x = k then some (step (t.lookup k) x) else t.lookup k := by
  split_ifs with h
  · rw [absorb, h, AList.lookup_insert]
  · rw [absorb, AList.lookup_insert_ne (Ne.symm h)]

theorem mem_absorb : k ∈ t.absorb key step x ↔ k = key x ∨ k ∈ t :=
  AList.mem_insert t

variable (key : σ → κ) (step : Option ρ → σ → ρ) (t : Table κ ρ) (xs : List σ) (k : κ)

-- A part of a row that only depends on the same part of the row before.
theorem map_lookup_absorb {β : Type} (f : ρ → β) (g : Option β → β) (h : ∀ r, f (step r x) = g (r.map f)) :
    ((t.absorb key step x).lookup (key x)).map f = some (g ((t.lookup (key x)).map f)) := by
  rw [lookup_absorb, if_pos rfl, Option.map_some, h]

-- Samples with other keys do not matter.
theorem lookup_foldl_absorb :
    (xs.foldl (absorb key step) t).lookup k = rowOf step (t.lookup k) (xs.filter (key · = k)) := by
  induction xs generalizing t
  case nil          => rfl
  case cons x xs hi =>
    rw [List.foldl_cons, hi, lookup_absorb, List.filter_cons]
    by_cases h : key x = k <;> simp [h]

theorem mem_foldl_absorb : k ∈ xs.foldl (absorb key step) t ↔ k ∈ xs.map key ∨ k ∈ t := by
  induction xs generalizing t
  case nil          => simp
  case cons x xs hi =>
    rw [List.foldl_cons, hi, mem_absorb, List.map_cons, List.mem_cons]
    tauto

end Rows

-- The rows of a table can be visited by means of what its keys stand for.
theorem filterMap_entries {α β : Type} (encode : α → κ) (decode : κ → Option α) {t : Table κ ρ}
    (hd : ∀ a, decode (encode a) = some a) (hk : ∀ k ∈ t.keys, ∃ a, encode a = k) (f : α → ρ → Option β) :
    (t.entries.filterMap fun e => (decode e.1).bind fun a => f a e.2) =
    (t.keys.filterMap decode).filterMap fun a => (t.lookup (encode a)).bind (f a) := by
  rw [AList.keys, List.keys, List.filterMap_map, List.filterMap_filterMap]
  refine List.filterMap_congr fun e he => ?_
  obtain ⟨a, ha⟩ := hk e.1 (List.mem_map_of_mem he)
  have hl : t.lookup e.1 = some e.2 := AList.mem_lookup_iff.mpr he
  simp only [Function.comp_apply, ← ha, hd, Option.bind_some]
  rw [ha, hl, Option.bind_some]

end Table

namespace List

variable {α κ : Type} {encode : α → κ} {decode : κ → Option α} {ks : List κ}

-- Keys that are encoded differently are decoded differently.
theorem Nodup.filterMap_decode (h : ks.Nodup) (hd : ∀ a, decode (encode a) = some a)
    (hk : ∀ k ∈ ks, ∃ a, encode a = k) : (ks.filterMap decode).Nodup := by
  refine pairwise_filterMap.mpr (h.imp_of_mem fun {k k'} hm hm' hn a ha a' ha' => ?_)
  obtain ⟨b, rfl⟩  := hk k hm
  obtain ⟨b', rfl⟩ := hk k' hm'
  rw [hd, Option.some_inj] at ha ha'
  subst ha ha'
  exact fun h => hn (congrArg encode h)

theorem mem_filterMap_decode (hd : ∀ a, decode (encode a) = some a) (hk : ∀ k ∈ ks, ∃ a, encode a = k) {a : α} :
    a ∈ ks.filterMap decode ↔ encode a ∈ ks := by
  rw [mem_filterMap]
  constructor
  · rintro ⟨k, hm, ha⟩
    obtain ⟨b, rfl⟩ := hk k hm
    rw [hd, Option.some_inj] at ha
    exact ha ▸ hm
  · exact fun h => ⟨_, h, hd a⟩

-- If one element cannot be visited, then the whole visit fails.
theorem mapM_ite {α β : Type} {p : α → Prop} [DecidablePred p] (f : α → β) (as : List α) :
    (as.mapM fun a => if p a then some (f a) else none) = if ∀ a ∈ as, p a then some (as.map f) else none := by
  induction as
  case nil          => simp
  case cons a as hi => by_cases h : p a <;> by_cases hs : ∀ a ∈ as, p a <;> simp_all

end List
