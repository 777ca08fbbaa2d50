import ProxyBroker.Regex.Basic

-- The first of `n` indices from `i` on for which there is a result.
def firstFrom {α : Type} (f : Nat → Option α) (i : Nat) : Nat → Option α
  | 0     => none
  | n + 1 => (f i).or (firstFrom f (i + 1) n)

section

variable {α : Type} {f : Nat → Option α} {i j n : Nat} {a : α}

theorem firstFrom_eq_none : firstFrom f i n = none ↔ ∀ j, i ≤ j → j < i + n → f j = none := by
  induction n generalizing i
  case zero      => exact ⟨fun _ j _ _ => by omega, fun _ => rfl⟩
  case succ n hi =>
    rw [firstFrom, Option.or_eq_none_iff, hi]
    constructor
    case mp =>
      rintro ⟨h, hs⟩ j hj hn
      rcases Nat.eq_or_lt_of_le hj with rfl | hj
      · exact h
      · exact hs j hj (by omega)
    case mpr => exact fun h => ⟨h i le_rfl (by omega), fun j hj hn => h j (by omega) (by omega)⟩

theorem firstFrom_eq_of (hi : i ≤ j) (hn : j < i + n) (ha : f j = some a) (h : ∀ k, i ≤ k → k < j → f k = none) :
    firstFrom f i n = some a := by
  induction n generalizing i
  case zero      => omega
  case succ n hi' =>
    rw [firstFrom]
    rcases Nat.eq_or_lt_of_le hi with rfl | hi
    · rw [ha, Option.some_or]
    · rw [h i le_rfl hi, Option.none_or]
      exact hi' hi (by omega) fun k hk => h k (by omega)

theorem firstFrom_eq_some : firstFrom f i n = some a ↔
    ∃ j, i ≤ j ∧ j < i + n ∧ f j = some a ∧ ∀ k, i ≤ k → k < j → f k = none := by
  constructor
  case mp =>
    intro h
    induction n generalizing i
    case zero      => cases h
    case succ n hi =>
      rw [firstFrom, Option.or_eq_some_iff] at h
      rcases h with h | ⟨h, hs⟩
      · exact ⟨i, le_rfl, by omega, h, fun k _ _ => by omega⟩
      · obtain ⟨j, hj, hn, ha, hf⟩ := hi hs
        refine ⟨j, by omega, by omega, ha, fun k hk hl => ?_⟩
        rcases Nat.eq_or_lt_of_le hk with rfl | hk
        · exact h
        · exact hf k hk hl
  case mpr =>
    rintro ⟨j, hi, hn, ha, h⟩
    exact firstFrom_eq_of hi hn ha h

theorem firstFrom_congr {g : Nat → Option α} (h : ∀ j, i ≤ j → j < i + n → f j = g j) : firstFrom f i n = firstFrom g i n := by
  induction n generalizing i
  case zero      => rfl
  case succ n hi => rw [firstFrom, firstFrom, h i le_rfl (by omega), hi fun j hj hn => h j (by omega) (by omega)]

theorem firstFrom_add (n k : Nat) : firstFrom f i (n + k) = (firstFrom f i n).or (firstFrom f (i + n) k) := by
  induction n generalizing i
  case zero      => simp [firstFrom]
  case succ n hi =>
    rw [Nat.succ_add, firstFrom, firstFrom, hi, Option.or_assoc]
    congr 3
    omega

-- The indices can be shifted.
theorem firstFrom_shift (k : Nat) : firstFrom f (k + i) n = firstFrom (fun j => f (k + j)) i n := by
  induction n generalizing i
  case zero      => rfl
  case succ n hi => rw [firstFrom, firstFrom, Nat.add_assoc, hi]

theorem map_firstFrom {β : Type} (g : α → β) : (firstFrom f i n).map g = firstFrom (fun j => (f j).map g) i n := by
  induction n generalizing i
  case zero      => rfl
  case succ n hi => cases h : f i <;> simp [firstFrom, h, hi]

theorem findSome?_congr {β : Type} {as : List β} {f g : β → Option α} (h : ∀ b ∈ as, f b = g b) :
    as.findSome? f = as.findSome? g := by
  induction as
  case nil          => rfl
  case cons b as hi =>
    rw [List.findSome?_cons, List.findSome?_cons, h b List.mem_cons_self, hi fun b hb => h b (List.mem_cons_of_mem _ hb)]

theorem findSome?_range : (List.range n).findSome? (fun k => f (i + k)) = firstFrom f i n := by
  induction n generalizing i
  case zero      => rfl
  case succ n hi =>
    have hs : (fun k => f (i + k)) ∘ Nat.succ = fun k => f (i + 1 + k) := by
      funext k
      simp only [Function.comp_apply, Nat.succ_eq_add_one]
      congr 1
      omega
    rw [List.range_succ_eq_map, List.findSome?_cons, List.findSome?_map, hs, hi, firstFrom, Nat.add_zero]
    cases f i <;> rfl

end

def slice (s : List Char) (i j : Nat) : List Char :=
  (s.drop i).take (j - i)

namespace Regular

variable (a : Regular) (s : List Char)

-- The leftmost match at or after an index, as its start and its end.
def findAt (i : Nat) : Option (Nat × Nat) :=
  firstFrom (fun j => (a.lengths (s.drop j)).head?.map fun n => (j, j + n)) i (s.length + 1 - i)

-- The matches that do not overlap.
def findIterFrom : Nat → Nat → List (Nat × Nat)
  | 0, _        => []
  | fuel + 1, i =>
    match a.findAt s i with
    | none   => []
    | some m => m :: findIterFrom fuel (if m.2 = m.1 then m.2 + 1 else m.2)

def findIter : List (Nat × Nat) :=
  a.findIterFrom s (s.length + 1) 0

variable {a s} {i j n : Nat}

theorem findAt_eq_none (h : a.lengths [] = []) : a.findAt s i = none ↔ ∀ j, i ≤ j → a.lengths (s.drop j) = [] := by
  simp only [findAt, firstFrom_eq_none, Option.map_eq_none_iff, List.head?_eq_none_iff]
  constructor
  case mp =>
    intro hn j hj
    by_cases hl : j < s.length
    case pos => exact hn j hj (by omega)
    case neg => rw [List.drop_of_length_le (Nat.le_of_not_lt hl), h]
  case mpr => exact fun hn j hj _ => hn j hj

theorem findAt_drop {k : Nat} (hk : k ≤ s.length) :
    a.findAt s k = (a.findAt (s.drop k) 0).map fun m => (k + m.1, k + m.2) := by
  rw [findAt, findAt, map_firstFrom, ← Nat.add_zero k, firstFrom_shift]
  simp only [List.drop_drop, List.length_drop, Option.map_map, Function.comp_def, Nat.add_zero, Nat.sub_zero,
    Nat.sub_add_comm hk, Nat.add_assoc]

theorem findAt_eq_some {m : Nat × Nat} : a.findAt s i = some m ↔
    i ≤ m.1 ∧ m.1 ≤ s.length ∧ (∃ n, (a.lengths (s.drop m.1)).head? = some n ∧ m.2 = m.1 + n) ∧
      ∀ k, i ≤ k → k < m.1 → a.lengths (s.drop k) = [] := by
  simp only [findAt, firstFrom_eq_some, Option.map_eq_some_iff, Option.map_eq_none_iff, List.head?_eq_none_iff]
  constructor
  case mp =>
    rintro ⟨j, hi, hl, ⟨n, hn, rfl⟩, hf⟩
    exact ⟨hi, by dsimp only; omega, ⟨n, hn, rfl⟩, hf⟩
  case mpr =>
    rintro ⟨hi, hl, ⟨n, hn, hm⟩, hf⟩
    exact ⟨m.1, hi, by omega, ⟨n, hn, by rw [← hm]⟩, hf⟩

-- A match is found if no other match reaches into it from the left.
theorem mem_findIter (hp : ∀ j, 0 ∉ a.lengths (s.drop j)) (hi : i ≤ s.length) (hn : (a.lengths (s.drop i)).head? = some n)
    (hl : ∀ j < i, ∀ m ∈ a.lengths (s.drop j), j + m ≤ i) : (i, i + n) ∈ a.findIter s := by
  have hf (fuel k : Nat) (hk : k ≤ i) (hf : s.length < fuel + k) : (i, i + n) ∈ a.findIterFrom s fuel k := by
    induction fuel generalizing k
    case zero => omega
    case succ fuel ih =>
      cases hm : a.findAt s k
      case none =>
        rw [findAt, firstFrom_eq_none] at hm
        have := hm i hk (by omega)
        simp [hn] at this
      case some m =>
        obtain ⟨hk', -, ⟨n', hn', he⟩, hf'⟩ := findAt_eq_some.mp hm
        have hle : m.1 ≤ i := by
          by_contra hlt
          rw [hf' i hk (by omega)] at hn
          cases hn
        have hne : n' ≠ 0 := fun h => hp m.1 (h ▸ List.mem_of_mem_head? hn')
        simp only [findIterFrom, hm]
        rcases Nat.eq_or_lt_of_le hle with heq | hlt
        · refine List.mem_cons.mpr (.inl ?_)
          rw [heq, hn, Option.some_inj] at hn'
          exact Prod.ext heq.symm (by rw [he, heq, hn'])
        · have := hl m.1 hlt n' (List.mem_of_mem_head? hn')
          rw [if_neg (by omega)]
          exact List.mem_cons_of_mem _ (ih m.2 (by omega) (by omega))
  exact hf _ 0 (Nat.zero_le i) (by omega)

-- A token that other characters delimit is found.
theorem mem_findIter_of_delimited {P : Char → Prop} {u t v : List Char} (ha : a.All P) (hp : ∀ s, 0 ∉ a.lengths s)
    (hu : ∀ c ∈ u.getLast?, ¬P c) (ht : (a.lengths (t ++ v)).head? = some t.length) :
    (u.length, u.length + t.length) ∈ a.findIter (u ++ (t ++ v)) := by
  refine mem_findIter (fun j => hp _) (by simp) (by rwa [List.drop_left]) fun j hj m hm => ?_
  by_contra hlt
  obtain ⟨hm, hP⟩ := ha.of_mem_lengths hm
  obtain ⟨c, hc⟩ : ∃ c, u.getLast? = some c :=
    ⟨_, List.getLast?_eq_some_getLast (List.ne_nil_of_length_pos (by omega))⟩
  obtain ⟨u, rfl⟩ := List.getLast?_eq_some_iff.mp hc
  refine hu c hc (hP c ?_)
  simp only [List.length_append, List.length_singleton] at hj hlt
  rw [List.append_assoc, List.drop_append_of_le_length (by omega), List.take_append, List.mem_append]
  refine .inr ?_
  obtain ⟨k, hk⟩ : ∃ k, m - (u.drop j).length = k + 1 := ⟨m - (u.drop j).length - 1, by simp; omega⟩
  rw [hk]
  simp

end Regular
