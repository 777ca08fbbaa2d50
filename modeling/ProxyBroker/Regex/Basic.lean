import Mathlib.Data.List.Basic
import Mathlib.Data.List.TakeWhile

-- Regular expressions without groups and assertions. Only single characters are repeated.
inductive Regular
  | eps
  | char (p : Char → Bool)
  | seq (a b : Regular)
  | alt (a b : Regular)
  | star (greedy : Bool) (p : Char → Bool)

namespace Regular

def lit (c : Char) : Regular :=
  char (· = c)

def opt (a : Regular) : Regular :=
  alt a eps

def times (a : Regular) : Nat → Regular
  | 0     => eps
  | n + 1 => seq a (times a n)

def upTo (a : Regular) : Nat → Regular
  | 0     => eps
  | n + 1 => opt (seq a (upTo a n))

-- The lengths of the prefixes that a backtracking matcher tries, in the order in which it tries them.
def lengths : Regular → List Char → List Nat
  | eps, _           => [0]
  | char _, []       => []
  | char p, c :: _   => if p c then [1] else []
  | seq a b, s       => (a.lengths s).flatMap fun n => (b.lengths (s.drop n)).map (n + ·)
  | alt a b, s       => a.lengths s ++ b.lengths s
  | star true p, s   => (List.range ((s.takeWhile p).length + 1)).reverse
  | star false p, s  => List.range ((s.takeWhile p).length + 1)

-- All characters that the expression can match have a property.
def All (P : Char → Prop) : Regular → Prop
  | eps      => True
  | char p   => ∀ c, p c → P c
  | seq a b  => a.All P ∧ b.All P
  | alt a b  => a.All P ∧ b.All P
  | star _ p => ∀ c, p c → P c

variable {a b : Regular} {p : Char → Bool} {P : Char → Prop} {s t : List Char} {c : Char} {n m : Nat}

theorem mem_lengths_seq : n ∈ (seq a b).lengths s ↔ ∃ k ∈ a.lengths s, ∃ m ∈ b.lengths (s.drop k), n = k + m := by
  simp only [lengths, List.mem_flatMap, List.mem_map, eq_comm]

theorem mem_lengths_alt : n ∈ (alt a b).lengths s ↔ n ∈ a.lengths s ∨ n ∈ b.lengths s :=
  List.mem_append

theorem lengths_alt : (alt a b).lengths s = a.lengths s ++ b.lengths s :=
  rfl

theorem mem_lengths_char : n ∈ (char p).lengths s ↔ n = 1 ∧ ∃ c ∈ s.head?, p c := by
  cases s
  case nil      => simp [lengths]
  case cons c s => by_cases hc : p c <;> simp [lengths, hc]

theorem mem_lengths_star {greedy : Bool} : n ∈ (star greedy p).lengths s ↔ n ≤ (s.takeWhile p).length := by
  cases greedy <;> simp only [lengths, List.mem_reverse, List.mem_range, Nat.lt_add_one_iff]

theorem head?_lengths_seq (ha : (a.lengths s).head? = some n) (hb : (b.lengths (s.drop n)).head? = some m) :
    ((seq a b).lengths s).head? = some (n + m) := by
  obtain ⟨ns, hn⟩ := List.head?_eq_some_iff.mp ha
  obtain ⟨ms, hm⟩ := List.head?_eq_some_iff.mp hb
  simp [lengths, hn, hm]

theorem head?_lengths_star : ((star true p).lengths s).head? = some (s.takeWhile p).length := by
  rw [lengths, List.head?_reverse, List.range_succ, List.getLast?_concat]

theorem lengths_times {k : Nat} : ((char p).times k).lengths s = if k ≤ (s.takeWhile p).length then [k] else [] := by
  induction k generalizing s
  case zero      => rfl
  case succ k hi =>
    rw [times, lengths]
    cases s
    case nil      => rfl
    case cons c s => by_cases hc : p c <;> simp [lengths, hc, hi, Nat.add_comm 1, apply_ite]

theorem lengths_upTo {k : Nat} :
    ((char p).upTo k).lengths s = (List.range (min k (s.takeWhile p).length + 1)).reverse := by
  induction k generalizing s
  case zero      => simp [upTo, lengths]
  case succ k hi =>
    rw [upTo, opt, lengths, lengths]
    cases s
    case nil      => rfl
    case cons c s =>
      by_cases hc : p c
      case neg => simp [lengths, hc]
      case pos =>
        simp only [lengths, hc, if_true, List.flatMap_cons, List.flatMap_nil, List.drop_succ_cons, List.drop_zero, hi,
          List.append_nil, List.takeWhile_cons_of_pos, List.length_cons, Nat.add_min_add_right]
        rw [List.range_succ_eq_map (n := min k _ + 1)]
        simp [Nat.add_comm 1]

theorem All.mono {Q : Char → Prop} (h : a.All P) (hq : ∀ c, P c → Q c) : a.All Q := by
  induction a
  case eps           => trivial
  case char          => exact fun c hc => hq c (h c hc)
  case seq a b ha hb => exact ⟨ha h.left, hb h.right⟩
  case alt a b ha hb => exact ⟨ha h.left, hb h.right⟩
  case star          => exact fun c hc => hq c (h c hc)

theorem All.times (h : a.All P) (k : Nat) : (a.times k).All P := by
  induction k
  case zero    => trivial
  case succ hi => exact ⟨h, hi⟩

theorem All.upTo (h : a.All P) (k : Nat) : (a.upTo k).All P := by
  induction k
  case zero    => trivial
  case succ hi => exact ⟨⟨h, hi⟩, trivial⟩

theorem take_prefix_takeWhile (h : n ≤ (s.takeWhile p).length) : s.take n <+: s.takeWhile p :=
  List.prefix_of_prefix_length_le (List.take_prefix ..) (List.takeWhile_prefix p) (by simp; omega)

-- What is matched.
theorem All.of_mem_lengths (h : a.All P) (hn : n ∈ a.lengths s) : n ≤ s.length ∧ ∀ c ∈ s.take n, P c := by
  induction a generalizing s n
  case eps =>
    obtain rfl : n = 0 := List.mem_singleton.mp hn
    simp
  case char =>
    obtain ⟨rfl, c, hc, hp⟩ := mem_lengths_char.mp hn
    obtain ⟨s, rfl⟩ := List.head?_eq_some_iff.mp hc
    simpa using h c hp
  case seq a b ha hb =>
    obtain ⟨k, hk, m, hm, rfl⟩ := mem_lengths_seq.mp hn
    obtain ⟨hl, hc⟩ := ha h.left hk
    obtain ⟨hl', hc'⟩ := hb h.right hm
    refine ⟨by simp at hl'; omega, fun c hm => ?_⟩
    rw [List.take_add, List.mem_append] at hm
    exact hm.elim (hc c) (hc' c)
  case alt a b ha hb => exact (mem_lengths_alt.mp hn).elim (ha h.left) (hb h.right)
  case star p =>
    have hl := mem_lengths_star.mp hn
    have hs := (List.takeWhile_prefix (l := s) p).length_le
    exact ⟨Nat.le_trans hl hs, fun c hc => h c (List.mem_takeWhile_imp ((take_prefix_takeWhile hl).subset hc))⟩

theorem all_true (a : Regular) : a.All fun _ => True := by
  induction a <;> simp_all [All]

theorem le_length_of_mem_lengths (h : n ∈ a.lengths s) : n ≤ s.length :=
  (a.all_true.of_mem_lengths h).left

theorem takeWhile_append_of_head? (h : ∀ c ∈ t.head?, ¬p c) : (s ++ t).takeWhile p = s.takeWhile p := by
  have ht : t.takeWhile p = [] := by
    cases t
    case nil      => rfl
    case cons c t => exact List.takeWhile_cons_of_neg (h c rfl)
  rw [List.takeWhile_append, ht, List.append_nil]
  split_ifs with hl
  · exact (List.Sublist.eq_of_length (List.takeWhile_sublist p) hl).symm
  · rfl

-- A match ends before a character that cannot be matched.
theorem lengths_append (h : ∀ c ∈ t.head?, a.All (· ≠ c)) : a.lengths (s ++ t) = a.lengths s := by
  induction a generalizing s
  case eps => rfl
  case char p =>
    cases s
    case cons => rfl
    case nil  =>
      cases t
      case nil      => rfl
      case cons c t =>
        have hc : ¬p c := fun hc => h c rfl c hc rfl
        simp [lengths, hc]
  case seq a b ha hb =>
    rw [lengths, lengths, ha fun c hc => (h c hc).left]
    refine List.flatMap_congr fun n hn => ?_
    rw [List.drop_append_of_le_length (le_length_of_mem_lengths hn), hb fun c hc => (h c hc).right]
  case alt a b ha hb => rw [lengths, lengths, ha fun c hc => (h c hc).left, hb fun c hc => (h c hc).right]
  case star greedy p =>
    have hp : ∀ c ∈ t.head?, ¬p c := fun c hc hp => h c hc c hp rfl
    cases greedy <;> simp only [lengths, takeWhile_append_of_head? hp]

-- A match does not depend on what comes after it.
theorem mem_lengths_append (h : n ∈ a.lengths s) : n ∈ a.lengths (s ++ t) := by
  induction a generalizing s n
  case eps => exact h
  case char p =>
    obtain ⟨rfl, c, hc, hp⟩ := mem_lengths_char.mp h
    obtain ⟨u, rfl⟩ := List.head?_eq_some_iff.mp hc
    exact mem_lengths_char.mpr ⟨rfl, c, rfl, hp⟩
  case seq a b ha hb =>
    obtain ⟨k, hk, m, hm, rfl⟩ := mem_lengths_seq.mp h
    refine mem_lengths_seq.mpr ⟨k, ha hk, m, ?_, rfl⟩
    rw [List.drop_append_of_le_length (le_length_of_mem_lengths hk)]
    exact hb hm
  case alt a b ha hb => exact mem_lengths_alt.mpr ((mem_lengths_alt.mp h).imp ha hb)
  case star greedy p =>
    refine mem_lengths_star.mpr ((mem_lengths_star.mp h).trans ?_)
    rw [List.takeWhile_append]
    split_ifs with hl
    · rw [List.length_append, hl]
      exact Nat.le_add_right ..
    · exact le_rfl

-- An expression matches a text as a whole.
def Matches (a : Regular) (s : List Char) : Prop :=
  s.length ∈ a.lengths s

instance : Decidable (a.Matches s) :=
  inferInstanceAs (Decidable (_ ∈ _))

section Matches

theorem matches_eps : eps.Matches s ↔ s = [] := by
  simp [Matches, lengths]

theorem matches_char : (char p).Matches s ↔ ∃ c, s = [c] ∧ p c := by
  rw [Matches, mem_lengths_char]
  constructor
  case mp =>
    rintro ⟨hl, c, hc, hp⟩
    obtain ⟨u, rfl⟩ := List.head?_eq_some_iff.mp hc
    obtain rfl := List.length_eq_zero_iff.mp (Nat.succ.inj hl)
    exact ⟨c, rfl, hp⟩
  case mpr =>
    rintro ⟨c, rfl, hp⟩
    exact ⟨rfl, c, rfl, hp⟩

theorem matches_alt : (alt a b).Matches s ↔ a.Matches s ∨ b.Matches s :=
  mem_lengths_alt

theorem All.of_matches (h : a.All P) (hs : a.Matches s) : ∀ c ∈ s, P c := by
  have := (h.of_mem_lengths hs).right
  rwa [List.take_length] at this

theorem Matches.seq (ha : a.Matches s) (hb : b.Matches t) : (seq a b).Matches (s ++ t) := by
  refine mem_lengths_seq.mpr ⟨_, mem_lengths_append ha, _, ?_, List.length_append⟩
  rwa [List.drop_left]

theorem matches_take (h : n ∈ a.lengths s) : a.Matches (s.take n) := by
  induction a generalizing s n
  case eps =>
    obtain rfl : n = 0 := List.mem_singleton.mp h
    exact List.mem_singleton.mpr rfl
  case char p =>
    obtain ⟨rfl, c, hc, hp⟩ := mem_lengths_char.mp h
    obtain ⟨u, rfl⟩ := List.head?_eq_some_iff.mp hc
    exact matches_char.mpr ⟨c, rfl, hp⟩
  case seq a b ha hb =>
    obtain ⟨k, hk, m, hm, rfl⟩ := mem_lengths_seq.mp h
    rw [List.take_add]
    exact (ha hk).seq (hb hm)
  case alt a b ha hb => exact matches_alt.mpr ((mem_lengths_alt.mp h).imp ha hb)
  case star greedy p =>
    have hp := take_prefix_takeWhile (mem_lengths_star.mp h)
    refine mem_lengths_star.mpr ?_
    rw [List.takeWhile_eq_self_iff.mpr fun c hc => List.mem_takeWhile_imp (hp.subset hc)]

theorem matches_seq : (seq a b).Matches s ↔ ∃ x y, s = x ++ y ∧ a.Matches x ∧ b.Matches y := by
  constructor
  case mp =>
    intro h
    obtain ⟨k, hk, m, hm, he⟩ := mem_lengths_seq.mp h
    refine ⟨s.take k, s.drop k, (List.take_append_drop k s).symm, matches_take hk, ?_⟩
    have hl : (s.drop k).length = m := by rw [List.length_drop, he, Nat.add_sub_cancel_left]
    rwa [Matches, hl]
  case mpr =>
    rintro ⟨x, y, rfl, hx, hy⟩
    exact hx.seq hy

theorem matches_opt : (opt a).Matches s ↔ a.Matches s ∨ s = [] := by
  rw [opt, matches_alt, matches_eps]

end Matches

-- Two expressions match the same parts of a text.
def SameOn (s : List Char) (a b : Regular) : Prop :=
  ∀ n, a.lengths (s.drop n) = b.lengths (s.drop n)

namespace SameOn

variable {a' b' : Regular} {q : Char → Bool}

theorem refl : SameOn s a a :=
  fun _ => rfl

theorem char (h : ∀ c ∈ s, p c = q c) : SameOn s (char p) (char q) := by
  intro n
  cases hs : s.drop n
  case nil      => rfl
  case cons c t => rw [lengths, lengths, h c (List.mem_of_mem_drop (hs ▸ List.mem_cons_self))]

theorem seq (ha : SameOn s a a') (hb : SameOn s b b') : SameOn s (seq a b) (seq a' b') := by
  intro n
  simp only [lengths, List.drop_drop, ha n, hb (n + _)]

theorem alt (ha : SameOn s a a') (hb : SameOn s b b') : SameOn s (alt a b) (alt a' b') :=
  fun n => congrArg₂ (· ++ ·) (ha n) (hb n)

theorem lengths_eq (h : SameOn s a b) : a.lengths s = b.lengths s :=
  h 0

end SameOn

end Regular
